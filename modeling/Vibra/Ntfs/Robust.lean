import Vibra.Ntfs.Boot

/-! # Damaged NTFS volumes

On an accepted volume nothing can go wrong but the run lists: one that starts behind its
attribute, whose sums leave their types, or that puts a cluster at a sector beyond 64 bits.
-/

namespace Vibra.Ntfs

open Lib (Outcome Bytes u16At u32At u64At u16At_lt u32At_lt)
open Lib.Outcome
open Fat32 (Name)

def ValidPart (name : Name) : Prop := name ≠ [] ∧ '/' ∉ name

namespace NtfsFs

variable {fs : NtfsFs}

def clusterBytes (fs : NtfsFs) : Nat := fs.boot.bytesPerSector * fs.boot.sectorsPerCluster

theorem Valid.readable (hv : fs.Valid) {runs : List Run} (hruns : RunsOk runs) {offset total : Nat}
    (h : offset + total ≤ 2 ^ 64) : Readable fs.clusterBytes runs offset total :=
  ⟨hv.boot.cluster, hruns, h⟩

theorem Valid.readRuns (hv : fs.Valid) (runs : List Run) (offset total : Nat) :
    fs.readRuns runs offset total = readRunsInto fs.disk fs.clusterBytes runs offset total := by
  rw [NtfsFs.readRuns, hv.boot.clusterSize, ok_bind]
  rfl

def RecordFits (fs : NtfsFs) (num : Nat) : Prop :=
  ¬ (fs.mftSize > 0 ∧ num * fs.boot.recordSize ≥ fs.mftSize) →
    PlacesFit fs.disk fs.clusterBytes fs.mftRuns (num * fs.boot.recordSize) fs.boot.recordSize

theorem Valid.record_range (hv : fs.Valid) {num : Nat} (hnum : num < 2 ^ 48) :
    num * fs.boot.recordSize < 2 ^ 64 ∧
      num * fs.boot.recordSize + fs.boot.recordSize ≤ 2 ^ 64 := by
  have hsize := hv.boot.recordSize
  have hle : (num + 1) * fs.boot.recordSize ≤ 2 ^ 48 * 65536 := Nat.mul_le_mul (by omega) hsize.2
  rw [Nat.succ_mul] at hle
  omega

theorem readRecord_ensures (hv : fs.Valid) {num : Nat} (hnum : num < 2 ^ 48)
    (h : fs.RecordFits num) :
    (fs.readRecord num).Ensures fun record => record.length = fs.boot.recordSize := by
  obtain ⟨hoff, hrange⟩ := hv.record_range hnum
  have hsize := hv.boot.recordSize
  simp only [readRecord, ensures_bind, ensures_mul, ensures_ite, ensures_err, ensures_ok,
    hv.readRuns]
  refine ⟨hoff, fun _ => trivial, fun hin => ?_⟩
  refine (readRunsInto_ensures (hv.readable hv.runs hrange) (h hin)).mono fun raw hraw => ?_
  rw [ensures_slice]
  refine ⟨by omega, fun _ => trivial, fun _ => ?_⟩
  refine (applyFixup_ensures (by omega) hv.boot.bytesPerSector).mono fun record hrecord => ?_
  exact ⟨fun _ => trivial, fun _ => hrecord.trans hraw⟩

theorem readRecord_safe_iff (hv : fs.Valid) {num : Nat} (hnum : num < 2 ^ 48) :
    (fs.readRecord num).Safe ↔ fs.RecordFits num := by
  obtain ⟨hoff, hrange⟩ := hv.record_range hnum
  constructor
  · intro h hin
    simp only [readRecord, Safe, ensures_bind, ensures_mul, ensures_ite, ensures_err,
      hv.readRuns] at h
    exact (readRunsInto_safe_iff (hv.readable hv.runs hrange)).mp
      ((h.2.2 hin).mono fun _ _ => trivial)
  · exact fun h => (readRecord_ensures hv hnum h).mono fun _ _ => trivial

/-! ## Directories -/

/-- The index buffers of an attribute can be located and read. -/
def AllocationFits (fs : NtfsFs) (record : Bytes) (attr : Nat × Nat) : Prop :=
  attr.2 = attrIndexAllocation → isResident record attr = false →
    attr.1 + u16At record (attr.1 + 32) ≤ record.length →
    attr.1 + u32At record (attr.1 + 4) ≤ record.length →
      RunListFits record attr.1 ∧
        ∀ runs, attrRuns record attr.1 = .ok runs → u64At record (attr.1 + 48) ≤ maxIndexBytes →
          PlacesFit fs.disk fs.clusterBytes runs 0 (u64At record (attr.1 + 48))

def DirFits (fs : NtfsFs) (record : Bytes) : Prop :=
  ∀ attrs, attrOffsets record = .ok attrs → ∀ a ∈ attrs, fs.AllocationFits record a

theorem bufferEntries_ensures (hv : fs.Valid) (blockSize : Nat) {realSize : Nat}
    {runs : List Run} (hruns : RunsOk runs)
    (h : realSize ≤ maxIndexBytes → PlacesFit fs.disk fs.clusterBytes runs 0 realSize) :
    (fs.bufferEntries blockSize realSize runs).Ensures NumsFit := by
  have hmax : maxIndexBytes < 2 ^ 32 := by decide
  simp only [bufferEntries, ensures_ite, ensures_ok, ensures_bind, ensures_attempt, hv.readRuns]
  refine ⟨fun _ => numsFit_nil, fun _ => ⟨fun _ => numsFit_nil, fun hsize => ?_⟩⟩
  rw [not_or, not_lt] at hsize
  have hreadable : Readable fs.clusterBytes runs 0 realSize := hv.readable hruns (by omega)
  have hread := readRunsInto_ensures hreadable (h hsize.2)
  refine ⟨hread.mono fun _ _ => trivial, fun buf hbuf => ?_, fun _ _ => numsFit_nil⟩
  have hlen := hread.of_ok hbuf
  refine collect_ensures (fun chunk hchunk => ?_) fun chunk hchunk => length_of_mem_chunks hchunk
  exact chunkEntries_ensures (by omega) hv.boot.bytesPerSector

theorem bufferEntries_safe_iff (hv : fs.Valid) (blockSize : Nat) {realSize : Nat}
    {runs : List Run} (hruns : RunsOk runs) :
    (fs.bufferEntries blockSize realSize runs).Safe ↔
      (realSize ≤ maxIndexBytes → PlacesFit fs.disk fs.clusterBytes runs 0 realSize) := by
  have hmax : maxIndexBytes < 2 ^ 32 := by decide
  constructor
  · intro h hsize n run hcomes hn hrun
    have hne : runs ≠ [] := List.ne_nil_of_mem (runAt_spec hrun).1
    rw [bufferEntries, if_neg hne, if_neg (by omega), safe_bind, hv.readRuns] at h
    have hread := h.1
    simp only [Safe, ensures_attempt] at hread
    exact (readRunsInto_safe_iff (hv.readable hruns (by omega))).mp hread.1 n run hcomes hn hrun
  · exact fun h => (bufferEntries_ensures hv blockSize hruns h).mono fun _ _ => trivial

section Record

variable {record : Bytes} (hrec : record.length < 2 ^ 32)

include hrec

def hasBuffers (record : Bytes) (attr : Nat × Nat) : Prop :=
  attr.2 = attrIndexAllocation ∧ isResident record attr = false ∧
    attr.1 + u16At record (attr.1 + 32) ≤ record.length ∧
    attr.1 + u32At record (attr.1 + 4) ≤ record.length

theorem allocationAttr_eq (blockSize : Nat) {attr : Nat × Nat}
    (hattr : HasHeader record attr) :
    (hasBuffers record attr → fs.allocationAttr record blockSize attr =
      attrRuns record attr.1 >>= fs.bufferEntries blockSize (u64At record (attr.1 + 48))) ∧
    (¬ hasBuffers record attr → fs.allocationAttr record blockSize attr = .ok []) := by
  have hlen : attr.1 + 24 ≤ record.length := hattr
  have h1 := u16At_lt record (attr.1 + 32)
  have h2 := u32At_lt record (attr.1 + 4)
  obtain ⟨off, atype⟩ := attr
  have h8 : (get record (off + 8) : Res UInt8) = .ok (record.getD (off + 8) 0) :=
    get_header hattr (by decide)
  simp only at hlen h1 h2
  simp only [allocationAttr, hasBuffers, isResident, decide_eq_false_iff_not]
  by_cases htype : atype = attrIndexAllocation
  · rw [if_neg (not_not.mpr htype), add_of_lt (by omega), ok_bind, h8, ok_bind]
    by_cases hres : record.getD (off + 8) 0 = 0
    · rw [if_pos hres]
      exact ⟨fun h => absurd hres h.2.1, fun _ => rfl⟩
    · rw [if_neg hres, add_of_lt (by omega), ok_bind, rdU32_of_lt (by omega), ok_bind,
        add_of_lt (by omega), ok_bind, rdU16_of_lt (by omega), ok_bind, add_of_lt (by omega),
        ok_bind, add_of_lt (by omega), ok_bind]
      by_cases hout : off + u16At record (off + 32) > record.length ∨
          off + u32At record (off + 4) > record.length
      · rw [if_pos hout]
        exact ⟨fun h => by omega, fun _ => rfl⟩
      · rw [if_neg hout]
        refine ⟨fun _ => ?_, fun h => absurd ⟨htype, hres, by omega, by omega⟩ h⟩
        rw [add_of_lt (by omega)]
        simp only [ok_bind, rdU64_of_lt (show off + 48 + 8 < 2 ^ 64 by omega)]
  · rw [if_pos htype]
    exact ⟨fun h => absurd h.1 htype, fun _ => rfl⟩

theorem allocationAttr_ensures (hv : fs.Valid) (blockSize : Nat) {attr : Nat × Nat}
    (hattr : HasHeader record attr) (h : fs.AllocationFits record attr) :
    (fs.allocationAttr record blockSize attr).Ensures NumsFit := by
  by_cases hbuf : hasBuffers record attr
  · obtain ⟨hfit, hplaces⟩ := h hbuf.1 hbuf.2.1 hbuf.2.2.1 hbuf.2.2.2
    rw [(allocationAttr_eq hrec blockSize hattr).1 hbuf, ensures_bind]
    have hruns := attrRuns_ensures hrec hattr hbuf.2.2.2 hfit
    refine Safe.ensures (hruns.mono fun _ _ => trivial) fun runs hok => ?_
    exact bufferEntries_ensures hv blockSize (hruns.of_ok hok) (hplaces runs hok)
  · rw [(allocationAttr_eq hrec blockSize hattr).2 hbuf]
    exact numsFit_nil

theorem allocationAttr_safe_iff (hv : fs.Valid) (blockSize : Nat) {attr : Nat × Nat}
    (hattr : HasHeader record attr) :
    (fs.allocationAttr record blockSize attr).Safe ↔ fs.AllocationFits record attr := by
  constructor
  · intro h htype hres hstart hstop
    rw [(allocationAttr_eq hrec blockSize hattr).1 ⟨htype, hres, hstart, hstop⟩, safe_bind] at h
    have hfit := (attrRuns_safe_iff hrec hattr hstop).mp h.1
    refine ⟨hfit, fun runs hok => ?_⟩
    have hruns := (attrRuns_ensures hrec hattr hstop hfit).of_ok hok
    exact (bufferEntries_safe_iff hv blockSize hruns).mp (h.2 runs hok)
  · exact fun h => (allocationAttr_ensures hrec hv blockSize hattr h).mono fun _ _ => trivial

omit hrec in
theorem noErr_bufferEntries (blockSize realSize : Nat) (runs : List Run) :
    (fs.bufferEntries blockSize realSize runs).NoErr := by
  simp only [bufferEntries, noErr_ite, noErr_bind, noErr_attempt, noErr_ok, implies_true, true_and]
  intro _ _ read _
  cases read with
  | error e => trivial
  | ok buf => exact noErr_collect fun chunk _ => noErr_chunkEntries _ chunk

theorem noErr_allocationAttr (blockSize : Nat) {attr : Nat × Nat}
    (hattr : HasHeader record attr) : (fs.allocationAttr record blockSize attr).NoErr := by
  by_cases hbuf : hasBuffers record attr
  · rw [(allocationAttr_eq hrec blockSize hattr).1 hbuf]
    exact noErr_bind.mpr
      ⟨noErr_attrRuns record attr.1, fun runs _ => noErr_bufferEntries _ _ runs⟩
  · rw [(allocationAttr_eq hrec blockSize hattr).2 hbuf]
    trivial

theorem listDir_ensures (hv : fs.Valid) (h : fs.DirFits record) :
    (fs.listDir record).Ensures NumsFit := by
  have hattrs := attrOffsets_ensures hrec
  rw [listDir, ensures_bind]
  refine Safe.ensures (hattrs.mono fun _ _ => trivial) fun attrs hok => ?_
  have hheaders := hattrs.of_ok hok
  rw [ensures_bind]
  have hroot := first_ensures (f := rootAttr record) fun a ha => rootAttr_ensures hrec (hheaders a ha)
  refine hroot.mono fun root hentries => ?_
  rw [ensures_bind]
  refine (collect_ensures (P := fun a => a ∈ attrs) (Q := fun e => e.num < 2 ^ 48)
    (fun a ha => allocationAttr_ensures hrec hv _ (hheaders a ha) (h attrs hok a ha))
    fun a ha => ha).mono fun more hmore => ?_
  refine NumsFit.append ?_ hmore
  cases root with
  | none => exact numsFit_nil
  | some r => exact hentries r rfl

theorem listDir_safe_iff (hv : fs.Valid) : (fs.listDir record).Safe ↔ fs.DirFits record := by
  constructor
  · intro h attrs hok a ha
    have hheaders := (attrOffsets_ensures hrec).of_ok hok
    rw [listDir, safe_bind] at h
    have hroot : (first (rootAttr record) attrs).Safe :=
      (first_ensures fun a ha => rootAttr_ensures hrec (hheaders a ha)).mono fun _ _ => trivial
    have hrest := safe_bind.mp (h.2 attrs hok)
    obtain ⟨root, hroot'⟩ := (noErr_first fun a _ => noErr_rootAttr record a).exists_ok hroot
    have hcollect := (safe_bind.mp (hrest.2 root hroot')).1
    refine (allocationAttr_safe_iff hrec hv _ (hheaders a ha)).mp (collect_turn ?_ hcollect ha)
    exact fun b hb => (noErr_allocationAttr hrec _ (hheaders b hb)).ne
  · exact fun h => (listDir_ensures hrec hv h).mono fun _ _ => trivial

theorem listDir_nums (hv : fs.Valid) {entries : List IndexEntry}
    (h : fs.listDir record = .ok entries) : NumsFit entries := by
  have hsafe : (fs.listDir record).Safe := by
    rw [h]
    trivial
  exact (listDir_ensures hrec hv ((listDir_safe_iff hrec hv).mp hsafe)).of_ok h

theorem enter_safe_iff (hv : fs.Valid) (part : Name) :
    (fs.enter record part).Safe ↔ (recordIsDir record = true → fs.DirFits record ∧
      ∀ entries found, fs.listDir record = .ok entries → lookup entries part = some found →
        fs.RecordFits found.num) := by
  by_cases hdir : recordIsDir record = true
  · rw [enter, if_pos hdir, safe_bind, listDir_safe_iff hrec hv]
    refine Iff.trans (and_congr_right fun _ => ?_) ⟨fun h _ => h, fun h => h hdir⟩
    refine forall_congr' fun entries => ?_
    have hnums {found : IndexEntry} (hok : fs.listDir record = .ok entries)
        (hfound : lookup entries part = some found) : found.num < 2 ^ 48 :=
      listDir_nums hrec hv hok found (List.mem_of_find?_eq_some hfound)
    constructor
    · intro h found hok hfound
      have hsafe := h hok
      rw [hfound] at hsafe
      exact (readRecord_safe_iff hv (hnums hok hfound)).mp hsafe
    · intro h hok
      cases hfound : lookup entries part with
      | none => trivial
      | some found => exact (readRecord_safe_iff hv (hnums hok hfound)).mpr (h found hok hfound)
  · rw [enter, if_neg hdir]
    exact ⟨fun _ h => absurd h hdir, fun _ => trivial⟩

end Record

theorem length_readRecord (hv : fs.Valid) {num : Nat} (hnum : num < 2 ^ 48) {record : Bytes}
    (h : fs.readRecord num = .ok record) : record.length < 2 ^ 32 := by
  have hsafe : (fs.readRecord num).Safe := by
    rw [h]
    trivial
  have hlen := (readRecord_ensures hv hnum ((readRecord_safe_iff hv hnum).mp hsafe)).of_ok h
  have hmax := hv.boot.recordSize
  omega

def Walked (fs : NtfsFs) (record : Bytes) : Prop :=
  ∃ root, fs.readRecord 5 = .ok root ∧ Lib.Reached fs.enter ValidPart root record

theorem walked_iff {record : Bytes} :
    fs.Walked record ↔ ∃ path, fs.findPath path = .ok record := by
  constructor
  · intro ⟨root, hroot, hreached⟩
    obtain ⟨ps, hps, hwalk⟩ := Lib.reached_iff.mp hreached
    refine ⟨Lib.Path.join '/' ps, ?_⟩
    rw [findPath, hroot, ok_bind, pathParts, Lib.Path.parts_join hps, hwalk]
  · intro ⟨path, hpath⟩
    obtain ⟨root, hroot, hwalk⟩ := bind_eq_ok hpath
    exact ⟨root, hroot, Lib.reached_iff.mpr ⟨_, Lib.Path.clean_parts path, hwalk⟩⟩

theorem Walked.length (hv : fs.Valid) {record : Bytes} (h : fs.Walked record) :
    record.length < 2 ^ 32 := by
  obtain ⟨root, hroot, hreached⟩ := h
  induction hreached with
  | start => exact length_readRecord hv (by decide) hroot
  | @step record record' part _ _ henter ih =>
    unfold enter at henter
    split at henter
    · obtain ⟨entries, hok, hrest⟩ := bind_eq_ok henter
      split at hrest
      next found hfound =>
        have hnum := listDir_nums ih hv hok found (List.mem_of_find?_eq_some hfound)
        exact length_readRecord hv hnum hrest
      · contradiction
    · contradiction

/-- The records that paths pass through can be read. -/
structure PathsFit (fs : NtfsFs) : Prop where
  root : fs.RecordFits 5
  directories : ∀ record, fs.Walked record → recordIsDir record = true → fs.DirFits record
  entries : ∀ record entries part found, fs.Walked record → recordIsDir record = true →
    fs.listDir record = .ok entries → ValidPart part → lookup entries part = some found →
      fs.RecordFits found.num

theorem findPath_safe_iff (hv : fs.Valid) : (∀ path, (fs.findPath path).Safe) ↔ fs.PathsFit := by
  have hroot : (fs.readRecord 5).Safe ↔ fs.RecordFits 5 := readRecord_safe_iff hv (by decide)
  constructor
  · intro h
    have hwalk : ∀ root, fs.readRecord 5 = .ok root → ∀ record part,
        Lib.Reached fs.enter ValidPart root record → ValidPart part →
          (fs.enter record part).Safe := by
      intro root hok
      rw [← Lib.walk_safe_iff]
      intro ps hps
      have hpath := h (Lib.Path.join '/' ps)
      rwa [findPath, hok, ok_bind, pathParts, Lib.Path.parts_join hps] at hpath
    refine ⟨hroot.mp (safe_bind.mp (h [])).1, ?_, ?_⟩
    · intro record hwalked hdir
      obtain ⟨root, hok, hreached⟩ := hwalked
      have henter := hwalk root hok record ['a'] hreached ⟨by decide, by decide⟩
      exact ((enter_safe_iff (Walked.length hv ⟨root, hok, hreached⟩) hv _).mp henter hdir).1
    · intro record entries part found hwalked hdir hlist hpart hfound
      obtain ⟨root, hok, hreached⟩ := hwalked
      have henter := hwalk root hok record part hreached hpart
      exact ((enter_safe_iff (Walked.length hv ⟨root, hok, hreached⟩) hv _).mp henter hdir).2
        entries found hlist hfound
  · intro h path
    rw [findPath, safe_bind]
    refine ⟨hroot.mpr h.root, fun root hok => ?_⟩
    refine Lib.walk_safe_iff.mpr (fun record part hreached hpart => ?_) _
      (Lib.Path.clean_parts path)
    have hwalked : fs.Walked record := ⟨root, hok, hreached⟩
    rw [enter_safe_iff (hwalked.length hv) hv]
    exact fun hdir => ⟨h.directories record hwalked hdir,
      fun entries found hlist hfound =>
        h.entries record entries part found hwalked hdir hlist hpart hfound⟩

end NtfsFs

end Vibra.Ntfs
