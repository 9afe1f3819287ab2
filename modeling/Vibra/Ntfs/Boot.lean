import Vibra.Ntfs.Records

/-! # Damaged boot sectors

What `new` computes from the boot sector and from record 0 before it has a volume, and what
an accepted volume promises.
-/

namespace Vibra.Ntfs

open Lib (Outcome Bytes RawDisk u16At u32At u64At u16At_lt u32At_lt)
open Lib.Outcome

structure NtfsBoot.Valid (boot : NtfsBoot) : Prop where
  bytesPerSector : 256 ≤ boot.bytesPerSector ∧ boot.bytesPerSector < 65536
  sectorsPerCluster : 0 < boot.sectorsPerCluster ∧ boot.sectorsPerCluster < 256
  recordSize : 512 ≤ boot.recordSize ∧ boot.recordSize ≤ 65536

/-- The checks that `parse` makes before it comes to the size of a record. -/
structure BootHeader (s : Bytes) : Prop where
  name : (s.drop 3).take 8 = [0x4E, 0x54, 0x46, 0x53, 0x20, 0x20, 0x20, 0x20]
  bytesPerSector : ¬ (u16At s 11 < 256 ∨ ¬ isPowerOfTwo (u16At s 11))
  sectorsPerCluster : ¬ ((s.getD 13 0).toNat = 0 ∨ ¬ isPowerOfTwo (s.getD 13 0).toNat)
  places : ¬ (u64At s 40 = 0 ∨ u64At s 48 = 0)

def ShiftFits (s : Bytes) : Prop := (s.getD 64 0).toNat < 128 ∨ 224 < (s.getD 64 0).toNat

theorem recordSizeOf_safe_iff {cpr bps spc : Nat} (hcpr : cpr < 256) (hbps : bps < 65536)
    (hspc : spc < 256) : (recordSizeOf cpr bps spc).Safe ↔ cpr < 128 ∨ 224 < cpr := by
  have h1 : cpr * bps ≤ 256 * 65536 := Nat.mul_le_mul (by omega) (by omega)
  have h2 : cpr * bps * spc ≤ 127 * 65536 * 256 ∨ 128 ≤ cpr := by
    by_cases h : cpr < 128
    · exact .inl (Nat.mul_le_mul (Nat.mul_le_mul (by omega) (by omega)) (by omega))
    · exact .inr (by omega)
  simp only [recordSizeOf, Safe, ensures_ite, ensures_err, ensures_bind, ensures_mul, ensures_shl]
  constructor
  · intro h
    by_cases hsmall : cpr < 128
    · exact .inl hsmall
    · have := (h.2 (by omega)).2 hsmall
      omega
  · intro h
    exact ⟨fun _ => trivial, fun _ =>
      ⟨fun _ => ⟨by omega, by omega, trivial⟩, fun _ => ⟨by omega, trivial⟩⟩⟩

theorem parse_ensures_iff {s : Bytes} (hs : s.length = 512) {Q : NtfsBoot → Prop} :
    (NtfsBoot.parse s).Ensures Q ↔ (BootHeader s →
      (recordSizeOf (s.getD 64 0).toNat (u16At s 11) (s.getD 13 0).toNat).Ensures fun size =>
        ¬ (size < 512 ∨ size > 65536) →
          Q ⟨u16At s 11, (s.getD 13 0).toNat, u64At s 40, u64At s 48, size⟩) := by
  have hget {i : Nat} (hi : i < 512) : (get s i : Res UInt8) = .ok (s.getD i 0) := by
    rw [get_of_lt (by omega), List.getD_eq_getElem _ _ (by omega)]
  rw [NtfsBoot.parse, if_neg (by omega), slice_of_le (by omega), ok_bind, hget (by omega),
    hget (by omega)]
  simp only [ok_bind, ensures_ite, ensures_bind, ensures_err, ensures_ok]
  constructor
  · intro h hheader
    refine (((((h.2 (not_not.mpr hheader.name)).2 hheader.bytesPerSector).2
      hheader.sectorsPerCluster).2 hheader.places)).mono fun size hsize hbounds => ?_
    exact hsize.2 hbounds
  · intro h
    refine ⟨fun _ => trivial, fun hname => ⟨fun _ => trivial, fun hbps => ⟨fun _ => trivial,
      fun hspc => ⟨fun _ => trivial, fun hplaces => ?_⟩⟩⟩⟩
    refine (h ⟨not_not.mp hname, hbps, hspc, hplaces⟩).mono fun size hsize => ?_
    exact ⟨fun _ => trivial, hsize⟩

theorem parse_safe_iff {s : Bytes} (hs : s.length = 512) :
    (NtfsBoot.parse s).Safe ↔ (BootHeader s → ShiftFits s) := by
  rw [Safe, parse_ensures_iff hs]
  refine imp_congr_right fun _ => ?_
  rw [ShiftFits, ← recordSizeOf_safe_iff (UInt8.toNat_lt _) (u16At_lt s 11) (UInt8.toNat_lt _)]
  exact ⟨fun h => h.mono fun _ _ => trivial, fun h => h.mono fun _ _ _ => trivial⟩

theorem parse_valid {s : Bytes} (hs : s.length = 512) {boot : NtfsBoot}
    (h : NtfsBoot.parse s = .ok boot) : boot.Valid := by
  have hsafe : (NtfsBoot.parse s).Safe := by
    rw [h]
    trivial
  suffices hvalid : (NtfsBoot.parse s).Ensures NtfsBoot.Valid from hvalid.of_ok h
  rw [parse_ensures_iff hs]
  rw [Safe, parse_ensures_iff hs] at hsafe
  intro hheader
  have hbps := hheader.bytesPerSector
  have hspc := hheader.sectorsPerCluster
  have hlt := UInt8.toNat_lt (s.getD 13 0)
  have hlt' := u16At_lt s 11
  rw [not_or] at hbps hspc
  refine (hsafe hheader).mono fun size _ hsize => ⟨⟨?_, ?_⟩, ⟨?_, ?_⟩, ?_, ?_⟩
  all_goals simp only
  all_goals omega

variable {disk : RawDisk} {boot : NtfsBoot}

theorem NtfsBoot.Valid.cluster (hv : boot.Valid) :
    0 < boot.bytesPerSector * boot.sectorsPerCluster ∧
      boot.bytesPerSector * boot.sectorsPerCluster < 2 ^ 32 := by
  have h1 := hv.bytesPerSector
  have h2 := hv.sectorsPerCluster
  have hle : boot.bytesPerSector * boot.sectorsPerCluster ≤ 65536 * 256 :=
    Nat.mul_le_mul (by omega) (by omega)
  exact ⟨Nat.mul_pos (by omega) h2.1, by omega⟩

theorem NtfsBoot.Valid.clusterSize (hv : boot.Valid) :
    boot.clusterSize = .ok (boot.bytesPerSector * boot.sectorsPerCluster) :=
  if_pos hv.cluster.2

theorem readAbs_ensures (off : Nat) {len : Nat} (hlen : len ≤ 65536) :
    (readAbs disk off len).Ensures fun buf => buf.length = len := by
  have hmod : off % 512 < 512 := Nat.mod_lt _ (by decide)
  rw [readAbs, ensures_ite]
  constructor
  · intro _
    rw [ensures_ofOption]
    exact fun buf hbuf => disk.length_read _ _ _ hbuf
  · intro _
    simp only [ensures_bind, ensures_add, ensures_mul, ensures_ofOption, ensures_slice]
    refine ⟨by omega, by omega, by omega, fun buf hbuf => ?_⟩
    have hread := disk.length_read _ _ _ hbuf
    refine ⟨by omega, by omega, ?_⟩
    rw [length_slice (by omega)]
    omega

/-- The ends of record 0 and of the volume are byte numbers of 64 bits. -/
structure PlaceFits (boot : NtfsBoot) : Prop where
  record : boot.mftLcn * (boot.bytesPerSector * boot.sectorsPerCluster) + boot.recordSize < 2 ^ 64
  volume : boot.totalSectors * 512 < 2 ^ 64

theorem firstRecord_ensures (hv : boot.Valid) (h : PlaceFits boot) :
    (NtfsFs.firstRecord disk boot).Ensures fun rec0 => rec0.length = boot.recordSize := by
  have hplace := h.record
  have hsize := hv.recordSize
  rw [NtfsFs.firstRecord, hv.clusterSize, ok_bind]
  simp only [ensures_bind, ensures_mul, ensures_add, ensures_ite, ensures_err, ensures_ok,
    ensures_slice]
  refine ⟨by omega, hplace, h.volume, fun _ => trivial, fun _ => ?_⟩
  refine (readAbs_ensures _ hsize.2).mono fun raw hraw => ?_
  refine (applyFixup_ensures (by omega) hv.bytesPerSector).mono fun rec0 hrec => ?_
  exact ⟨by omega, fun _ => trivial, fun _ => hrec.trans hraw⟩

theorem firstRecord_safe_iff (hv : boot.Valid) :
    (NtfsFs.firstRecord disk boot).Safe ↔ PlaceFits boot := by
  constructor
  · intro h
    rw [NtfsFs.firstRecord, hv.clusterSize, ok_bind] at h
    simp only [Safe, ensures_bind, ensures_mul, ensures_add] at h
    exact ⟨h.2.1, h.2.2.1⟩
  · exact fun h => (firstRecord_ensures hv h).mono fun _ _ => trivial

/-- The attribute is the `$DATA` without a name. -/
def isUnnamedData (record : Bytes) (attr : Nat × Nat) : Bool :=
  attr.2 = attrData && record.getD (attr.1 + 9) 0 = 0

def isResident (record : Bytes) (attr : Nat × Nat) : Bool := record.getD (attr.1 + 8) 0 = 0

/-- The attribute that `new` takes the runs of the MFT from. -/
def isMft (record : Bytes) (attr : Nat × Nat) : Bool :=
  isUnnamedData record attr && !isResident record attr

/-- If the run list of the MFT lies in record 0, it can be read. -/
def MftFits (rec0 : Bytes) : Prop :=
  ∀ attrs a, attrOffsets rec0 = .ok attrs → attrs.find? (isMft rec0) = some a →
    a.1 + u16At rec0 (a.1 + 32) < rec0.length → a.1 + u32At rec0 (a.1 + 4) ≤ rec0.length →
      RunListFits rec0 a.1

section Record

variable {record : Bytes} (hrec : record.length < 2 ^ 32)

theorem get_header {attr : Nat × Nat} (hattr : HasHeader record attr) {k : Nat} (hk : k < 24) :
    (get record (attr.1 + k) : Res UInt8) = .ok (record.getD (attr.1 + k) 0) := by
  have hlen : attr.1 + 24 ≤ record.length := hattr
  rw [get_of_lt (by omega), List.getD_eq_getElem _ _ (by omega)]

include hrec

theorem mftAttr_eq {attr : Nat × Nat} (hattr : HasHeader record attr) :
    mftAttr record attr =
      if isMft record attr then
        if attr.1 + u16At record (attr.1 + 32) < record.length ∧
            attr.1 + u32At record (attr.1 + 4) ≤ record.length then
          attrRuns record attr.1 >>= fun runs => .ok (some (runs, u64At record (attr.1 + 48)))
        else .ok (some ([], u64At record (attr.1 + 48)))
      else .ok none := by
  have hlen : attr.1 + 24 ≤ record.length := hattr
  have h1 := u16At_lt record (attr.1 + 32)
  have h2 := u32At_lt record (attr.1 + 4)
  obtain ⟨off, atype⟩ := attr
  have h8 : (get record (off + 8) : Res UInt8) = .ok (record.getD (off + 8) 0) :=
    get_header hattr (by decide)
  have h9 : (get record (off + 9) : Res UInt8) = .ok (record.getD (off + 9) 0) :=
    get_header hattr (by decide)
  simp only at hlen h1 h2
  simp only [mftAttr, isMft, isUnnamedData, isResident, Bool.and_eq_true, decide_eq_true_eq,
    Bool.not_eq_true', decide_eq_false_iff_not]
  by_cases htype : atype = attrData
  · rw [if_neg (not_not.mpr htype), add_of_lt (by omega), ok_bind, h9, ok_bind]
    by_cases hname : record.getD (off + 9) 0 = 0
    · rw [if_neg (not_not.mpr hname), add_of_lt (by omega), ok_bind, h8, ok_bind]
      by_cases hres : record.getD (off + 8) 0 = 0
      · rw [if_pos hres, if_neg fun h => h.2 hres, pure_eq]
      · rw [if_neg hres, if_pos ⟨⟨htype, hname⟩, hres⟩, add_of_lt (by omega), ok_bind,
          rdU32_of_lt (by omega), ok_bind, add_of_lt (by omega), ok_bind, rdU16_of_lt (by omega),
          ok_bind, add_of_lt (by omega), ok_bind, rdU64_of_lt (by omega), ok_bind,
          add_of_lt (by omega), ok_bind, add_of_lt (by omega), ok_bind]
        rfl
    · rw [if_pos hname, if_neg fun h => hname h.1.2, pure_eq]
  · rw [if_pos htype, if_neg fun h => htype h.1.1, pure_eq]

theorem first_mftAttr {attrs : List (Nat × Nat)} (hattrs : ∀ a ∈ attrs, HasHeader record a) :
    first (mftAttr record) attrs = (attrs.find? (isMft record)).elim (.ok none)
      (mftAttr record) := by
  apply first_eq_find
  · intro a ha hp
    rw [mftAttr_eq hrec (hattrs a ha), hp]
    rfl
  · intro a ha hp h
    rw [mftAttr_eq hrec (hattrs a ha), if_pos hp] at h
    split at h
    · obtain ⟨runs, _, hruns⟩ := bind_eq_ok h
      exact Option.some_ne_none _ (Outcome.ok.inj hruns)
    · exact Option.some_ne_none _ (Outcome.ok.inj h)

theorem first_mftAttr_ensures {attrs : List (Nat × Nat)}
    (hattrs : attrOffsets record = .ok attrs) (h : MftFits record) :
    (first (mftAttr record) attrs).Ensures fun found => RunsOk (found.getD ([], 0)).1 := by
  have hheaders := (attrOffsets_ensures hrec).of_ok hattrs
  rw [first_mftAttr hrec hheaders]
  cases hfind : attrs.find? (isMft record) with
  | none => simp [RunsOk]
  | some a =>
    have ha := List.mem_of_find?_eq_some hfind
    rw [Option.elim_some, mftAttr_eq hrec (hheaders a ha), if_pos (List.find?_some hfind), ensures_ite]
    refine ⟨fun hin => ?_, fun _ => by simp [RunsOk]⟩
    rw [ensures_bind]
    exact (attrRuns_ensures hrec (hheaders a ha) hin.2 (h attrs a hattrs hfind hin.1 hin.2)).mono
      fun runs hruns => hruns

theorem mftFits_of_safe {attrs : List (Nat × Nat)} (hattrs : attrOffsets record = .ok attrs)
    (h : (first (mftAttr record) attrs).Safe) : MftFits record := by
  intro attrs' a hattrs' hfind hstart hstop
  obtain rfl : attrs = attrs' := Outcome.ok.inj (hattrs.symm.trans hattrs')
  have hheaders := (attrOffsets_ensures hrec).of_ok hattrs
  have ha := List.mem_of_find?_eq_some hfind
  rw [first_mftAttr hrec hheaders, hfind, Option.elim_some] at h
  rw [mftAttr_eq hrec (hheaders a ha), if_pos (List.find?_some hfind), if_pos ⟨hstart, hstop⟩,
    safe_bind] at h
  exact (attrRuns_safe_iff hrec (hheaders a ha) hstop).mp h.1

end Record

structure NtfsFs.Valid (fs : NtfsFs) : Prop where
  boot : fs.boot.Valid
  runs : RunsOk fs.mftRuns

/-- The boot sector and record 0 hold no number that `new` cannot compute with. -/
structure BootFits (disk : RawDisk) : Prop where
  shift : ∀ s, disk.read 0 512 = some s → BootHeader s → ShiftFits s
  place : ∀ s boot, disk.read 0 512 = some s → NtfsBoot.parse s = .ok boot → PlaceFits boot
  mft : ∀ s boot rec0, disk.read 0 512 = some s → NtfsBoot.parse s = .ok boot →
    NtfsFs.firstRecord disk boot = .ok rec0 → MftFits rec0

theorem new_ensures (h : BootFits disk) : (NtfsFs.new disk).Ensures NtfsFs.Valid := by
  simp only [NtfsFs.new, ensures_bind, ensures_ofOption]
  intro s hs
  have hlen := disk.length_read _ _ _ hs
  refine ((parse_safe_iff hlen).mpr (h.shift s hs)).ensures fun boot hboot => ?_
  have hv := parse_valid hlen hboot
  have hplace : (NtfsFs.firstRecord disk boot).Ensures
      fun rec0 => rec0.length = boot.recordSize :=
    firstRecord_ensures hv (h.place s boot hs hboot)
  refine Safe.ensures (hplace.mono fun _ _ => trivial) fun rec0 hrec0 => ?_
  have hrec : rec0.length < 2 ^ 32 := by
    have hsize := hplace.of_ok hrec0
    have hmax := hv.recordSize
    omega
  refine Safe.ensures ((attrOffsets_ensures hrec).mono fun _ _ => trivial) fun attrs hattrs => ?_
  refine (first_mftAttr_ensures hrec hattrs (h.mft s boot rec0 hs hboot hrec0)).mono
    fun found hruns => ?_
  rw [ensures_ite]
  exact ⟨fun _ => trivial, fun _ => ⟨hv, hruns⟩⟩

theorem new_safe_iff : (NtfsFs.new disk).Safe ↔ BootFits disk := by
  constructor
  · intro h
    rw [NtfsFs.new, safe_bind] at h
    have hread {s : Bytes} (hs : disk.read 0 512 = some s) :
        (ofOption .ioError (disk.read 0 512) : Res Bytes) = .ok s := by
      rw [hs]
      rfl
    have hparse {s : Bytes} (hs : disk.read 0 512 = some s) := safe_bind.mp (h.2 s (hread hs))
    have hfirst {s : Bytes} {boot : NtfsBoot} (hs : disk.read 0 512 = some s)
        (hboot : NtfsBoot.parse s = .ok boot) := safe_bind.mp ((hparse hs).2 boot hboot)
    refine ⟨fun s hs => ?_, fun s boot hs hboot => ?_, fun s boot rec0 hs hboot hrec0 => ?_⟩
    · exact (parse_safe_iff (disk.length_read _ _ _ hs)).mp (hparse hs).1
    · exact (firstRecord_safe_iff (parse_valid (disk.length_read _ _ _ hs) hboot)).mp
        (hfirst hs hboot).1
    · have hv := parse_valid (disk.length_read _ _ _ hs) hboot
      have hplace := (firstRecord_safe_iff hv).mp (hfirst hs hboot).1
      have hsize := (firstRecord_ensures hv hplace).of_ok hrec0
      have hmax := hv.recordSize
      have hattrs := safe_bind.mp ((hfirst hs hboot).2 rec0 hrec0)
      cases hok : attrOffsets rec0 with
      | ok attrs =>
        exact mftFits_of_safe (by omega) hok (safe_bind.mp (hattrs.2 attrs hok)).1
      | err e =>
        intro attrs a h'
        rw [hok] at h'
        contradiction
      | panic =>
        intro attrs a h'
        rw [hok] at h'
        contradiction
      | diverge =>
        intro attrs a h'
        rw [hok] at h'
        contradiction
  · exact fun h => (new_ensures h).mono fun _ _ => trivial

theorem new_valid {fs : NtfsFs} (h : NtfsFs.new disk = .ok fs) : fs.Valid := by
  have hsafe : (NtfsFs.new disk).Safe := by
    rw [h]
    trivial
  exact (new_ensures (new_safe_iff.mp hsafe)).of_ok h

end Vibra.Ntfs
