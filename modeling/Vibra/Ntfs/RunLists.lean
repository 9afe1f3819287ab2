import Vibra.Ntfs.Volume

/-! # When run lists can be followed

A run list is safe to parse exactly when its running sums stay in their types, and a range
of a content is safe to read exactly when each place the reading comes to has a sector
number of 64 bits.
-/

namespace Vibra.Ntfs

open Lib (Outcome Bytes RawDisk)
open Lib.Outcome

/-- The lengths and offsets of an encoded run list, up to its end or to what is no entry. -/
def runFields : Bytes → List (Nat × Int)
  | [] => []
  | header :: rest =>
    let lenSize := header.toNat % 16
    let offSize := header.toNat / 16
    if header = 0 ∨ lenSize = 0 ∨ lenSize > 8 ∨ offSize > 8 ∨ lenSize + offSize > rest.length then
      []
    else
      (leNat (rest.take lenSize), leInt ((rest.drop lenSize).take offSize)) ::
        runFields (rest.drop (lenSize + offSize))
termination_by b => b.length
decreasing_by
  simp only [List.length_drop, List.length_cons]
  omega

/-- The sums of the offsets stay in `i64`, those of the lengths in `u64`. -/
def SumsFit : List (Nat × Int) → Nat → Int → Prop
  | [], _, _ => True
  | (count, delta) :: rest, vcn, lcn =>
    (-2 ^ 63 ≤ lcn + delta ∧ lcn + delta < 2 ^ 63) ∧ vcn + count < 2 ^ 64 ∧
      SumsFit rest (vcn + count) (lcn + delta)

def RunsFit (b : Bytes) : Prop := SumsFit (runFields b) 0 0

def RunsOk (runs : List Run) : Prop := ∀ r ∈ runs, r.vcn + r.count < 2 ^ 64

theorem runLoop_step {b : Bytes} (hb : b.length < 2 ^ 32) {i : Nat} (hi : i < b.length)
    (fuel vcn : Nat) (lcn : Int) {lenSize offSize : Nat} (hlen : b[i].toNat % 16 = lenSize)
    (hoff : b[i].toNat / 16 = offSize) :
    runLoop b (fuel + 1) i vcn lcn =
      if b[i] = 0 ∨ lenSize = 0 ∨ lenSize > 8 ∨ offSize > 8 ∨
          lenSize + offSize > (b.drop (i + 1)).length then .ok []
      else do
        let count := leNat ((b.drop (i + 1)).take lenSize)
        let delta := leInt (((b.drop (i + 1)).drop lenSize).take offSize)
        let lcn ← addInt 64 lcn delta
        if count = 0 then runLoop b fuel (i + 1 + (lenSize + offSize)) vcn lcn
        else do
          let next ← add 64 vcn count
          let rest ← runLoop b fuel (i + 1 + (lenSize + offSize)) next lcn
          return ⟨vcn, (lcn % 2 ^ 64).toNat, count⟩ :: rest := by
  rw [runLoop, if_pos hi, get_of_lt hi, ok_bind, hlen, hoff]
  by_cases hzero : b[i] = 0
  · rw [if_pos hzero, if_pos (.inl hzero)]
  rw [if_neg hzero, add_of_lt (by omega), ok_bind]
  simp only [hzero, false_or]
  by_cases hsize : lenSize = 0 ∨ lenSize > 8 ∨ offSize > 8
  · rw [if_pos hsize, if_pos (by omega)]
  rw [if_neg hsize, add_of_lt (by omega), ok_bind, add_of_lt (by omega), ok_bind, List.length_drop]
  by_cases hstop : i + 1 + lenSize + offSize > b.length
  · rw [if_pos hstop, if_pos (by omega)]
  rw [if_neg hstop, if_neg (by omega), slice_of_le (by omega), ok_bind, slice_of_le (by omega), ok_bind,
    List.drop_drop]
  have h1 : i + 1 + lenSize - (i + 1) = lenSize := by omega
  have h2 : i + 1 + lenSize + offSize - (i + 1 + lenSize) = offSize := by omega
  rw [h1, h2, Nat.add_assoc (i + 1)]

theorem runFields_step {b : Bytes} {i : Nat} (hi : i < b.length) {lenSize offSize : Nat}
    (hlen : b[i].toNat % 16 = lenSize) (hoff : b[i].toNat / 16 = offSize) :
    runFields (b.drop i) =
      if b[i] = 0 ∨ lenSize = 0 ∨ lenSize > 8 ∨ offSize > 8 ∨
          lenSize + offSize > (b.drop (i + 1)).length then []
      else
        (leNat ((b.drop (i + 1)).take lenSize),
          leInt (((b.drop (i + 1)).drop lenSize).take offSize)) ::
          runFields (b.drop (i + 1 + (lenSize + offSize))) := by
  have hrest : b.drop (i + 1 + (lenSize + offSize)) =
      (b.drop (i + 1)).drop (lenSize + offSize) := (List.drop_drop ..).symm
  rw [List.drop_eq_getElem_cons hi, runFields, hlen, hoff, hrest]

theorem runLoop_ensures {b : Bytes} (hb : b.length < 2 ^ 32) {fuel i vcn : Nat} {lcn : Int}
    (hfuel : b.length - i < fuel) (hvcn : vcn < 2 ^ 64)
    (h : SumsFit (runFields (b.drop i)) vcn lcn) :
    (runLoop b fuel i vcn lcn).Ensures RunsOk := by
  induction fuel generalizing i vcn lcn with
  | zero => omega
  | succ fuel ih =>
    by_cases hi : i < b.length
    · rw [runFields_step hi rfl rfl] at h
      rw [runLoop_step hb hi fuel vcn lcn rfl rfl]
      split
      · simp [RunsOk]
      next hentry =>
        rw [if_neg hentry] at h
        obtain ⟨hlcn, hnext, hrest⟩ := h
        simp only [ensures_bind, ensures_addInt, ensures_ite]
        refine ⟨hlcn, fun hzero => ?_, fun _ => ?_⟩
        · rw [hzero] at hrest
          exact ih (by omega) hvcn hrest
        · simp only [ensures_add, pure_eq, ensures_ok]
          refine ⟨hnext, (ih (by omega) hnext hrest).mono fun rest hruns => ?_⟩
          intro r hr
          rcases List.mem_cons.mp hr with rfl | hr
          · exact hnext
          · exact hruns r hr
    · rw [runLoop, if_neg hi]
      simp [RunsOk]

theorem sumsFit_of_safe {b : Bytes} (hb : b.length < 2 ^ 32) {fuel i vcn : Nat} {lcn : Int}
    (hfuel : b.length - i < fuel) (hvcn : vcn < 2 ^ 64) (h : (runLoop b fuel i vcn lcn).Safe) :
    SumsFit (runFields (b.drop i)) vcn lcn := by
  induction fuel generalizing i vcn lcn with
  | zero => omega
  | succ fuel ih =>
    by_cases hi : i < b.length
    · have hshort (k : Nat) : b.length - (i + 1 + k) < fuel := by omega
      rw [runLoop_step hb hi fuel vcn lcn rfl rfl] at h
      rw [runFields_step hi rfl rfl]
      split
      · trivial
      next hentry =>
        rw [if_neg hentry] at h
        simp only [Safe, ensures_bind, ensures_addInt, ensures_ite] at h
        obtain ⟨hlcn, hzero, hcount⟩ := h
        refine ⟨hlcn, ?_⟩
        by_cases h0 : leNat ((b.drop (i + 1)).take (b[i].toNat % 16)) = 0
        · rw [h0]
          exact ⟨hvcn, ih (hshort _) hvcn (hzero h0)⟩
        · have hnext := hcount h0
          simp only [ensures_add, pure_eq, ensures_ok] at hnext
          exact ⟨hnext.1, ih (hshort _) hnext.1 hnext.2⟩
    · rw [List.drop_eq_nil_of_le (by omega), runFields]
      trivial

theorem parseRuns_ensures {b : Bytes} (hb : b.length < 2 ^ 32) (h : RunsFit b) :
    (parseRuns b).Ensures RunsOk :=
  runLoop_ensures hb (by omega) (by decide) h

theorem parseRuns_safe_iff {b : Bytes} (hb : b.length < 2 ^ 32) :
    (parseRuns b).Safe ↔ RunsFit b :=
  ⟨sumsFit_of_safe hb (by omega) (by decide),
    fun h => (parseRuns_ensures hb h).mono fun _ _ => trivial⟩

/-! ## Reading -/

def runAt (runs : List Run) (vcn : Nat) : Option Run :=
  runs.find? fun r => r.vcn ≤ vcn ∧ vcn < r.vcn + r.count

theorem runAt_spec {runs : List Run} {vcn : Nat} {r : Run} (h : runAt runs vcn = some r) :
    r ∈ runs ∧ r.vcn ≤ vcn := by
  have hr := List.find?_some h
  simp only [decide_eq_true_eq] at hr
  exact ⟨List.mem_of_find?_eq_some h, hr.1⟩

theorem runFor_eq {runs : List Run} (h : RunsOk runs) (vcn : Nat) :
    runFor runs vcn = .ok (runAt runs vcn) := by
  induction runs with
  | nil => rfl
  | cons r rest ih =>
    have hrest := ih fun r hr => h r (by simp [hr])
    rw [runFor, add_of_lt (h r (by simp)), ok_bind, hrest]
    by_cases hle : r.vcn ≤ vcn
    · by_cases hlt : vcn < r.vcn + r.count
      · simp [runAt, hle, hlt]
      · simp [runAt, hle, hlt]
    · simp [runAt, hle]

def sectorAt (cs : Nat) (run : Run) (abs : Nat) : Nat :=
  (run.lcn + (abs / cs - run.vcn)) * max (cs / 512) 1 + abs % cs / 512

def takeAt (cs abs left : Nat) : Nat := min left (cs - abs % cs)

def bytesAt (disk : RawDisk) (cs : Nat) (run : Run) (abs left : Nat) : Option Bytes :=
  disk.read (sectorAt cs run abs) ((abs % cs % 512 + takeAt cs abs left + 511) / 512 * 512)

/-- The places of a range that the reading comes to: each has a run, and can be read, up to
the last. -/
inductive Comes (disk : RawDisk) (cs : Nat) (runs : List Run) (offset total : Nat) : Nat → Prop
  | start : Comes disk cs runs offset total 0
  | step {n : Nat} {run : Run} {tmp : Bytes} : Comes disk cs runs offset total n → n < total →
      runAt runs ((offset + n) / cs) = some run →
      bytesAt disk cs run (offset + n) (total - n) = some tmp →
      Comes disk cs runs offset total (n + takeAt cs (offset + n) (total - n))

def PlacesFit (disk : RawDisk) (cs : Nat) (runs : List Run) (offset total : Nat) : Prop :=
  ∀ n run, Comes disk cs runs offset total n → n < total →
    runAt runs ((offset + n) / cs) = some run → sectorAt cs run (offset + n) < 2 ^ 64

structure Readable (cs : Nat) (runs : List Run) (offset total : Nat) : Prop where
  clusterSize : 0 < cs ∧ cs < 2 ^ 32
  runs : RunsOk runs
  range : offset + total ≤ 2 ^ 64

variable {disk : RawDisk} {cs offset total : Nat} {runs : List Run}

theorem takeAt_pos (hcs : 0 < cs) {abs left : Nat} (h : 0 < left) : 0 < takeAt cs abs left := by
  have hmod := Nat.mod_lt abs hcs
  unfold takeAt
  omega

theorem readRunsLoop_ensures_iff (h : Readable cs runs offset total) {fuel : Nat} {out : Bytes}
    (hout : out.length < total) {Q : Bytes → Prop} :
    (readRunsLoop disk cs (max (cs / 512) 1) runs offset total (fuel + 1) out).Ensures Q ↔
      ∀ run, runAt runs ((offset + out.length) / cs) = some run →
        sectorAt cs run (offset + out.length) < 2 ^ 64 ∧
        ∀ tmp, bytesAt disk cs run (offset + out.length) (total - out.length) = some tmp →
          (readRunsLoop disk cs (max (cs / 512) 1) runs offset total fuel
            (out ++ (tmp.drop ((offset + out.length) % cs % 512)).take
              (takeAt cs (offset + out.length) (total - out.length)))).Ensures Q := by
  have hcs := h.clusterSize
  have hrange := h.range
  have hmod := Nat.mod_lt (offset + out.length) hcs.1
  rw [readRunsLoop, if_pos hout]
  simp only [ensures_bind, ensures_add, ensures_div, ensures_rem, runFor_eq h.runs, ensures_ok]
  have hne : cs ≠ 0 := by omega
  simp only [hne, ne_eq, not_false_eq_true, true_and]
  constructor
  · rintro ⟨_, hgo⟩ run hrun
    rw [hrun] at hgo
    simp only [ensures_bind, ensures_sub, ensures_add, ensures_mul, ensures_ofOption,
      ensures_slice] at hgo
    obtain ⟨_, _, _, _, hsector, _, _, _, hrest⟩ := hgo
    refine ⟨hsector, fun tmp htmp => ?_⟩
    have := (hrest tmp htmp).2
    rwa [Nat.add_sub_cancel_left] at this
  · intro hgo
    refine ⟨by omega, ?_⟩
    cases hrun : runAt runs ((offset + out.length) / cs) with
    | none => trivial
    | some run =>
      obtain ⟨hsector, hrest⟩ := hgo run hrun
      obtain ⟨_, hvcn⟩ := runAt_spec hrun
      have hlcn : run.lcn + ((offset + out.length) / cs - run.vcn) ≤
          (run.lcn + ((offset + out.length) / cs - run.vcn)) * max (cs / 512) 1 :=
        Nat.le_mul_of_pos_right _ (by omega)
      simp only [ensures_bind, ensures_sub, ensures_add, ensures_mul, ensures_ofOption,
        ensures_slice]
      unfold sectorAt at hsector
      refine ⟨hvcn, by omega, by omega, by omega, hsector, by omega, by omega, by omega, ?_⟩
      intro tmp htmp
      have hlen := disk.length_read _ _ _ htmp
      refine ⟨by omega, ?_⟩
      have hnext := hrest tmp htmp
      rwa [Nat.add_sub_cancel_left]

theorem length_part {run : Run} {abs left : Nat} {tmp : Bytes}
    (h : bytesAt disk cs run abs left = some tmp) :
    ((tmp.drop (abs % cs % 512)).take (takeAt cs abs left)).length = takeAt cs abs left := by
  have hlen := disk.length_read _ _ _ h
  simp only [List.length_take, List.length_drop, hlen]
  omega

theorem readRunsLoop_ensures (h : Readable cs runs offset total)
    (hfit : PlacesFit disk cs runs offset total) {fuel : Nat} {out : Bytes}
    (hfuel : total - out.length < fuel) (hle : out.length ≤ total)
    (hcomes : Comes disk cs runs offset total out.length) :
    (readRunsLoop disk cs (max (cs / 512) 1) runs offset total fuel out).Ensures
      fun data => data.length = total := by
  induction fuel generalizing out with
  | zero => omega
  | succ fuel ih =>
    by_cases hout : out.length < total
    · rw [readRunsLoop_ensures_iff h hout]
      intro run hrun
      refine ⟨hfit _ run hcomes hout hrun, fun tmp htmp => ?_⟩
      have hpos : 0 < takeAt cs (offset + out.length) (total - out.length) :=
        takeAt_pos h.clusterSize.1 (Nat.sub_pos_of_lt hout)
      have htake : takeAt cs (offset + out.length) (total - out.length) ≤ total - out.length :=
        min_le_left _ _
      have hnext := hcomes.step hout hrun htmp
      rw [← length_part htmp, ← List.length_append] at hnext
      have hlen := length_part htmp
      apply ih
      · rw [List.length_append]
        omega
      · rw [List.length_append]
        omega
      · exact hnext
    · rw [readRunsLoop, if_neg hout, ensures_ok]
      omega

theorem readRunsInto_ensures (h : Readable cs runs offset total)
    (hfit : PlacesFit disk cs runs offset total) :
    (readRunsInto disk cs runs offset total).Ensures fun data => data.length = total := by
  rw [readRunsInto, ensures_ite]
  exact ⟨fun _ => trivial, fun _ => readRunsLoop_ensures h hfit (by simp) (by simp) .start⟩

theorem Comes.safe (h : Readable cs runs offset total)
    (hsafe : (readRunsLoop disk cs (max (cs / 512) 1) runs offset total (total + 1) []).Safe)
    {n : Nat} (hcomes : Comes disk cs runs offset total n) : n ≤ total ∧ ∃ fuel out,
      out.length = n ∧ total - n < fuel ∧
        (readRunsLoop disk cs (max (cs / 512) 1) runs offset total fuel out).Safe := by
  induction hcomes with
  | start => exact ⟨by omega, total + 1, [], rfl, by omega, hsafe⟩
  | @step n run tmp _ hn hrun htmp ih =>
    obtain ⟨_, fuel, out, rfl, hfuel, hloop⟩ := ih
    have hpos : 0 < takeAt cs (offset + out.length) (total - out.length) :=
      takeAt_pos h.clusterSize.1 (Nat.sub_pos_of_lt hn)
    have htake : takeAt cs (offset + out.length) (total - out.length) ≤ total - out.length :=
      min_le_left _ _
    obtain ⟨fuel, rfl⟩ : ∃ k, fuel = k + 1 := ⟨fuel - 1, by omega⟩
    have hnext := ((readRunsLoop_ensures_iff h hn).mp hloop run hrun).2 tmp htmp
    refine ⟨by omega, fuel, _, ?_, by omega, hnext⟩
    rw [List.length_append, length_part htmp]

theorem readRunsInto_safe_iff (h : Readable cs runs offset total) :
    (readRunsInto disk cs runs offset total).Safe ↔ PlacesFit disk cs runs offset total := by
  constructor
  · intro hsafe n run hcomes hn hrun
    have hruns : runs ≠ [] := List.ne_nil_of_mem (runAt_spec hrun).1
    have hcs := h.clusterSize
    rw [readRunsInto, if_neg (by simp [hruns]; omega)] at hsafe
    obtain ⟨_, fuel, out, rfl, hfuel, hloop⟩ := hcomes.safe h hsafe
    obtain ⟨fuel, rfl⟩ : ∃ k, fuel = k + 1 := ⟨fuel - 1, by omega⟩
    exact ((readRunsLoop_ensures_iff h hn).mp hloop run hrun).1
  · exact fun hfit => (readRunsInto_ensures h hfit).mono fun _ _ => trivial

end Vibra.Ntfs
