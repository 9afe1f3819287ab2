import Vibra.Ntfs.Driver
import Vibra.Ntfs.RunLists

/-! # What records and index buffers can hold

Every offset in a record and in an index buffer is checked before it is used, except that the
run list of an attribute may start behind the attribute's end.
-/

namespace Vibra.Ntfs

open Lib (Outcome Bytes u16At u32At u64At u16At_lt u32At_lt)
open Lib.Outcome

@[simp] theorem ensures_rdU16 {b : Bytes} {o : Nat} {Q : Nat → Prop} :
    (rdU16 b o).Ensures Q ↔ o + 2 < 2 ^ 64 ∧ Q (u16At b o) := by
  simp [rdU16]

@[simp] theorem ensures_rdU32 {b : Bytes} {o : Nat} {Q : Nat → Prop} :
    (rdU32 b o).Ensures Q ↔ o + 4 < 2 ^ 64 ∧ Q (u32At b o) := by
  simp [rdU32]

@[simp] theorem ensures_rdU64 {b : Bytes} {o : Nat} {Q : Nat → Prop} :
    (rdU64 b o).Ensures Q ↔ o + 8 < 2 ^ 64 ∧ Q (u64At b o) := by
  simp [rdU64]

theorem rdU16_of_lt {b : Bytes} {o : Nat} (h : o + 2 < 2 ^ 64) : rdU16 b o = .ok (u16At b o) := by
  rw [rdU16, add_of_lt h, ok_bind, pure_eq]

theorem rdU32_of_lt {b : Bytes} {o : Nat} (h : o + 4 < 2 ^ 64) : rdU32 b o = .ok (u32At b o) := by
  rw [rdU32, add_of_lt h, ok_bind, pure_eq]

theorem rdU64_of_lt {b : Bytes} {o : Nat} (h : o + 8 < 2 ^ 64) : rdU64 b o = .ok (u64At b o) := by
  rw [rdU64, add_of_lt h, ok_bind, pure_eq]

def HasHeader (record : Bytes) (attr : Nat × Nat) : Prop := attr.1 + 24 ≤ record.length

section Record

variable {record : Bytes} (hrec : record.length < 2 ^ 32)

include hrec

theorem attrLoop_ensures {limit : Nat} (hlimit : limit ≤ record.length) {fuel off : Nat}
    (hoff : off < 2 ^ 32) (hfuel : record.length - off < fuel) :
    (attrLoop record limit fuel off).Ensures fun attrs => ∀ a ∈ attrs, HasHeader record a := by
  induction fuel generalizing off with
  | zero => omega
  | succ fuel ih =>
    have hlen := u32At_lt record (off + 4)
    simp only [attrLoop, ensures_bind, ensures_add, ensures_ite, ensures_rdU32]
    refine ⟨by omega, fun hhead => ⟨by omega, by omega, by omega, fun _ => by simp,
      fun hstop => ⟨by omega, fun _ => by simp, fun hnext => ?_⟩⟩, fun _ => by simp⟩
    rw [not_or] at hstop
    refine (ih (by omega) (by omega)).mono fun rest hrest => ?_
    intro a ha
    rcases List.mem_cons.mp ha with rfl | ha
    · show off + 24 ≤ record.length
      omega
    · exact hrest a ha

theorem attrOffsets_ensures :
    (attrOffsets record).Ensures fun attrs => ∀ a ∈ attrs, HasHeader record a := by
  have hfirst := u16At_lt record 20
  exact attrLoop_ensures hrec (min_le_right _ _) (by omega) (by omega)

theorem attrResidentValue_ensures {off : Nat} (hoff : off + 24 ≤ record.length) :
    (attrResidentValue record off).Ensures fun val =>
      ∀ v, val = some v → v.length ≤ record.length := by
  have hlen := u32At_lt record (off + 16)
  have hstart := u16At_lt record (off + 20)
  rw [attrResidentValue, ensures_ite]
  refine ⟨fun _ => by simp, fun _ => ?_⟩
  simp only [ensures_bind, ensures_add, ensures_get, ensures_ite, ensures_rdU32, ensures_rdU16,
    ensures_slice, pure_eq, ensures_ok]
  refine ⟨by omega, record[off + 8], List.getElem?_eq_getElem (by omega), fun _ => by simp,
    fun _ => ⟨by omega, by omega, by omega, by omega, by omega, by omega, fun _ => by simp,
      fun hstop => ⟨by omega, ?_⟩⟩⟩
  intro v hv
  cases hv
  simp only [List.length_take, List.length_drop]
  omega

omit hrec in
/-- The run list of an attribute starts before the attribute ends, and its sums fit. -/
def RunListFits (record : Bytes) (off : Nat) : Prop :=
  let runOff := u16At record (off + 32)
  let alen := u32At record (off + 4)
  runOff ≤ alen ∧ RunsFit ((record.drop (off + runOff)).take (alen - runOff))

omit hrec in
theorem length_runBytes {off runOff alen : Nat} (h : alen < 2 ^ 32) :
    ((record.drop (off + runOff)).take (alen - runOff)).length < 2 ^ 32 := by
  simp only [List.length_take, List.length_drop]
  omega

theorem attrRuns_ensures_iff {off : Nat} (hoff : off + 24 ≤ record.length)
    (hstop : off + u32At record (off + 4) ≤ record.length) {Q : List Run → Prop} :
    (attrRuns record off).Ensures Q ↔ u16At record (off + 32) ≤ u32At record (off + 4) ∧
      (parseRuns ((record.drop (off + u16At record (off + 32))).take
        (u32At record (off + 4) - u16At record (off + 32)))).Ensures Q := by
  have hstart := u16At_lt record (off + 32)
  have hdiff : off + u32At record (off + 4) - (off + u16At record (off + 32)) =
      u32At record (off + 4) - u16At record (off + 32) := by omega
  simp only [attrRuns, ensures_bind, ensures_add, ensures_rdU32, ensures_rdU16, ensures_slice,
    hdiff]
  constructor
  · rintro ⟨_, _, _, _, _, _, hle, hruns⟩
    exact ⟨by omega, hruns⟩
  · rintro ⟨hle, hruns⟩
    exact ⟨by omega, by omega, by omega, by omega, by omega, by omega, by omega, hruns⟩

theorem attrRuns_safe_iff {off : Nat} (hoff : off + 24 ≤ record.length)
    (hstop : off + u32At record (off + 4) ≤ record.length) :
    (attrRuns record off).Safe ↔ RunListFits record off := by
  rw [Safe, attrRuns_ensures_iff hrec hoff hstop]
  exact and_congr_right fun _ => parseRuns_safe_iff (length_runBytes (u32At_lt _ _))

theorem attrRuns_ensures {off : Nat} (hoff : off + 24 ≤ record.length)
    (hstop : off + u32At record (off + 4) ≤ record.length) (h : RunListFits record off) :
    (attrRuns record off).Ensures RunsOk :=
  (attrRuns_ensures_iff hrec hoff hstop).mpr
    ⟨h.1, parseRuns_ensures (length_runBytes (u32At_lt _ _)) h.2⟩

omit hrec in
theorem fixupLoop_ensures {bps usaOff : Nat} (hbps : 2 ≤ bps) {is : List Nat} {buf : Bytes}
    (hbuf : buf.length < 2 ^ 32)
    (his : ∀ i ∈ is, 1 ≤ i ∧ i * bps < 2 ^ 64 ∧ usaOff + i * 2 + 1 < buf.length) :
    (fixupLoop bps usaOff is buf).Ensures fun out => out.length = buf.length := by
  induction is generalizing buf with
  | nil => exact rfl
  | cons i is ih =>
    obtain ⟨hi, hend, hsrc⟩ := his i (by simp)
    have hlow : bps ≤ i * bps := Nat.le_mul_of_pos_left _ hi
    simp only [fixupLoop, ensures_bind, ensures_mul, ensures_ite, ensures_ok, ensures_add,
      ensures_sub, ensures_get, ensures_put, List.length_set]
    refine ⟨hend, fun _ => trivial, fun hle => ⟨by omega, by omega, by omega, ?_⟩⟩
    refine ⟨buf[usaOff + i * 2], List.getElem?_eq_getElem (by omega), by omega, by omega,
      by omega, ?_⟩
    refine ⟨_, List.getElem?_eq_getElem (by rw [List.length_set]; omega), by omega, ?_⟩
    refine (ih ?_ ?_).mono fun out hout => ?_
    · simpa only [List.length_set] using hbuf
    · intro j hj
      simpa only [List.length_set] using his j (by simp [hj])
    · simpa only [List.length_set] using hout

theorem applyFixup_ensures {bps : Nat} (hbps : 256 ≤ bps ∧ bps < 65536) :
    (applyFixup record bps).Ensures fun out => out.length = record.length := by
  have hoff := u16At_lt record 4
  have hcount := u16At_lt record 6
  simp only [applyFixup, ensures_ite, ensures_ok, ensures_bind, ensures_mul, ensures_add]
  refine ⟨fun _ => trivial, fun _ => ⟨by omega, by omega, fun _ => trivial, fun hle => ?_⟩⟩
  apply fixupLoop_ensures (by omega) hrec
  intro i hi
  obtain ⟨k, hk, rfl⟩ := List.mem_range'.mp hi
  have hmul : (1 + 1 * k) * bps ≤ 65536 * 65536 := Nat.mul_le_mul (by omega) (by omega)
  exact ⟨by omega, by omega, by omega⟩

omit hrec in
theorem parseNameKey_safe (key : Bytes) : (parseNameKey key).Safe := by
  simp only [parseNameKey, Safe, ensures_ite, pure_eq, ensures_ok, ensures_bind, ensures_get,
    ensures_slice]
  refine ⟨fun _ => trivial, fun hlen => ?_⟩
  exact ⟨_, List.getElem?_eq_getElem (by omega), _, List.getElem?_eq_getElem (by omega),
    fun _ => trivial, fun _ => ⟨by omega, trivial⟩⟩

omit hrec in
def NumsFit (entries : List IndexEntry) : Prop := ∀ e ∈ entries, e.num < 2 ^ 48

omit hrec in
theorem NumsFit.append {es es' : List IndexEntry} (h : NumsFit es) (h' : NumsFit es') :
    NumsFit (es ++ es') := by
  intro e he
  rcases List.mem_append.mp he with he | he
  · exact h e he
  · exact h' e he

omit hrec in
theorem numsFit_nil : NumsFit [] := by simp [NumsFit]

omit hrec in
theorem keyEntry_ensures {keyStart keyLen fileRef : Nat} (hstart : keyStart < 2 ^ 33)
    (hlen : keyLen < 2 ^ 16) : (keyEntry record keyStart keyLen fileRef).Ensures NumsFit := by
  simp only [keyEntry, ensures_bind, ensures_add, ensures_ite, ensures_slice, pure_eq,
    ensures_ok]
  refine ⟨by omega, fun hend => ⟨by omega, ?_⟩, fun _ => numsFit_nil⟩
  refine (parseNameKey_safe _).mono fun info _ => ?_
  cases info with
  | none => exact numsFit_nil
  | some info =>
    simp only [ensures_ite, ensures_ok]
    refine ⟨fun _ e he => ?_, fun _ => numsFit_nil⟩
    rw [List.mem_singleton.mp he]
    exact Nat.mod_lt _ (by decide)

theorem entryLoop_ensures (stop : Nat) {fuel pos : Nat} (hpos : pos < 2 ^ 33)
    (hfuel : record.length - pos < fuel) : (entryLoop record stop fuel pos).Ensures NumsFit := by
  induction fuel generalizing pos with
  | zero => omega
  | succ fuel ih =>
    have hentry := u16At_lt record (pos + 8)
    have hkey := u16At_lt record (pos + 10)
    simp only [entryLoop, ensures_bind, ensures_add, ensures_ite, ensures_rdU64,
      ensures_rdU16, ensures_ok, pure_eq]
    refine ⟨by omega, fun hhead => ⟨by omega, by omega, by omega, by omega, by omega, by omega,
      by omega, fun _ => numsFit_nil, fun hmin => ⟨by omega, fun _ => numsFit_nil, fun hnext =>
        ⟨fun _ => numsFit_nil, fun _ => ?_⟩⟩⟩, fun _ => numsFit_nil⟩
    refine (keyEntry_ensures (by omega) hkey).mono fun here hhere => ?_
    exact (ih (by omega) (by omega)).mono fun rest hrest => hhere.append hrest

theorem collectEntries_ensures {start : Nat} (stop : Nat) (hstart : start < 2 ^ 33) :
    (collectEntries record start stop).Ensures NumsFit :=
  entryLoop_ensures hrec stop hstart (by omega)

theorem rootAttr_ensures {attr : Nat × Nat} (hattr : HasHeader record attr) :
    (rootAttr record attr).Ensures fun root => ∀ r, root = some r → NumsFit r.2 := by
  obtain ⟨off, atype⟩ := attr
  simp only [rootAttr, ensures_ite, pure_eq, ensures_ok, ensures_bind]
  refine ⟨fun _ => by simp, fun _ => ?_⟩
  refine (attrResidentValue_ensures hrec hattr).mono fun val hval => ?_
  cases val with
  | none => simp
  | some val =>
    have hlen := hval val rfl
    have hoff := u32At_lt val 16
    have htotal := u32At_lt val 20
    simp only [ensures_ite, ensures_ok, ensures_bind, ensures_add]
    refine ⟨fun _ => by simp, fun _ => ⟨by omega, by omega, ?_⟩⟩
    refine (collectEntries_ensures (by omega) _ (by omega)).mono fun entries hentries r hr => ?_
    cases hr
    exact hentries

theorem chunkEntries_ensures {bps : Nat} (hbps : 256 ≤ bps ∧ bps < 65536) :
    (chunkEntries bps record).Ensures NumsFit := by
  simp only [chunkEntries, ensures_ite, ensures_ok, ensures_bind, ensures_slice, ensures_add]
  refine ⟨fun _ => numsFit_nil, fun hlen => ⟨by omega, fun _ => numsFit_nil, fun _ => ?_⟩⟩
  refine (applyFixup_ensures hrec hbps).mono fun chunk hchunk => ?_
  have hoff := u32At_lt chunk 24
  have htotal := u32At_lt chunk 28
  exact ⟨by omega, by omega, collectEntries_ensures (by omega) _ (by omega)⟩

omit hrec in
theorem length_of_mem_chunks {size : Nat} {buf chunk : Bytes} (h : chunk ∈ chunks size buf) :
    chunk.length ≤ buf.length := by
  obtain ⟨i, _, rfl⟩ := List.mem_map.mp h
  simp only [List.length_take, List.length_drop]
  omega

end Record

@[simp] theorem noErr_rdU16 (b : Bytes) (o : Nat) : (rdU16 b o).NoErr := by
  simp [rdU16]

@[simp] theorem noErr_rdU32 (b : Bytes) (o : Nat) : (rdU32 b o).NoErr := by
  simp [rdU32]

@[simp] theorem noErr_rdU64 (b : Bytes) (o : Nat) : (rdU64 b o).NoErr := by
  simp [rdU64]

theorem noErr_runLoop (b : Bytes) (fuel i vcn : Nat) (lcn : Int) :
    (runLoop b fuel i vcn lcn).NoErr := by
  induction fuel generalizing i vcn lcn with
  | zero => trivial
  | succ fuel ih => simp [runLoop, noErr_ite, ih]

theorem noErr_attrRuns (record : Bytes) (off : Nat) : (attrRuns record off).NoErr := by
  simp [attrRuns, parseRuns, noErr_runLoop]

theorem noErr_fixupLoop (bps usaOff : Nat) (is : List Nat) (buf : Bytes) :
    (fixupLoop bps usaOff is buf).NoErr := by
  induction is generalizing buf with
  | nil => trivial
  | cons i is ih => simp [fixupLoop, noErr_ite, ih]

theorem noErr_applyFixup (record : Bytes) (bps : Nat) : (applyFixup record bps).NoErr := by
  simp [applyFixup, noErr_ite, noErr_fixupLoop]

theorem noErr_parseNameKey (key : Bytes) : (parseNameKey key).NoErr := by
  simp [parseNameKey, noErr_ite]

theorem noErr_keyEntry (buf : Bytes) (keyStart keyLen fileRef : Nat) :
    (keyEntry buf keyStart keyLen fileRef).NoErr := by
  simp only [keyEntry, noErr_bind, noErr_ite, noErr_add, noErr_slice, noErr_parseNameKey, pure_eq,
    noErr_ok, implies_true, and_true, true_and]
  intro keyEnd _ _ key _ info _
  cases info <;> simp [noErr_ite]

theorem noErr_entryLoop (buf : Bytes) (stop fuel pos : Nat) :
    (entryLoop buf stop fuel pos).NoErr := by
  induction fuel generalizing pos with
  | zero => trivial
  | succ fuel ih => simp [entryLoop, noErr_ite, ih, noErr_keyEntry]

theorem noErr_chunkEntries (bps : Nat) (chunk : Bytes) : (chunkEntries bps chunk).NoErr := by
  simp [chunkEntries, collectEntries, noErr_ite, noErr_applyFixup, noErr_entryLoop]

theorem noErr_rootAttr (record : Bytes) (attr : Nat × Nat) : (rootAttr record attr).NoErr := by
  have hvalue : (attrResidentValue record attr.1).NoErr := by
    simp [attrResidentValue, noErr_ite]
  simp only [rootAttr, noErr_ite, noErr_bind, pure_eq, noErr_ok, implies_true, true_and]
  refine fun _ => ⟨hvalue, fun val _ => ?_⟩
  cases val with
  | none => trivial
  | some val => simp [noErr_ite, collectEntries, noErr_entryLoop]

end Vibra.Ntfs
