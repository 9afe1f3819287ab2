import Vibra.Ntfs.RunLists

/-! # Data runs

A list of runs as the format writes it: each has a length and lies at a cluster, or it is a hole and
has no offset. Offsets are relative to the last run that lies anywhere.
-/

namespace Vibra.Ntfs

open Lib (Outcome Bytes Memory)
open Lib.Outcome

/-- A run with the widths of its fields. -/
structure DataRun where
  count : Nat
  /-- Where it lies; a hole lies nowhere. -/
  place : Option Nat
  lenSize : Nat
  offSize : Nat
  lenSize_range : 0 < lenSize ∧ lenSize ≤ 8
  offSize_le : offSize ≤ 8
  count_lt : count < 256 ^ lenSize
  hole_iff : place = none ↔ offSize = 0

def leBytes : Nat → Nat → Bytes
  | 0, _ => []
  | k + 1, n => UInt8.ofNat n :: leBytes k (n / 256)

def leIntBytes (k : Nat) (d : Int) : Bytes := leBytes k (d % 256 ^ k).toNat

namespace DataRun

variable (r : DataRun)

def after (prev : Nat) : Nat := r.place.getD prev

/-- The bytes of the run, where the last one lies at `prev`. -/
def bytes (prev : Nat) : Bytes :=
  UInt8.ofNat (r.lenSize + 16 * r.offSize) :: leBytes r.lenSize r.count ++
    leIntBytes r.offSize ((r.after prev : Int) - prev)

def Fits (prev : Nat) : Prop :=
  r.after prev < 2 ^ 63 ∧ (r.place ≠ none → -256 ^ r.offSize ≤ 2 * ((r.after prev : Int) - prev) ∧
    2 * ((r.after prev : Int) - prev) < 256 ^ r.offSize)

end DataRun

def runBytes : Nat → List DataRun → Bytes
  | _, [] => []
  | prev, r :: rest => r.bytes prev ++ runBytes (r.after prev) rest

def RunsCoded : Nat → List DataRun → Prop
  | _, [] => True
  | prev, r :: rest => r.Fits prev ∧ RunsCoded (r.after prev) rest

def clusters : List DataRun → Nat
  | [] => 0
  | r :: rest => r.count + clusters rest

/-- The runs as the driver places them: a hole where the last run lies. -/
def placed : Nat → Nat → List DataRun → List Run
  | _, _, [] => []
  | vcn, prev, r :: rest =>
    if r.count = 0 then placed vcn (r.after prev) rest
    else ⟨vcn, r.after prev, r.count⟩ :: placed (vcn + r.count) (r.after prev) rest

theorem length_leBytes (k n : Nat) : (leBytes k n).length = k := by
  induction k generalizing n with
  | zero => rfl
  | succ k ih => rw [leBytes, List.length_cons, ih]

theorem leNat_leBytes {k n : Nat} (h : n < 256 ^ k) : leNat (leBytes k n) = n := by
  induction k generalizing n with
  | zero =>
    rw [pow_zero] at h
    rw [leBytes, leNat]
    omega
  | succ k ih =>
    have hdiv : n / 256 < 256 ^ k := Nat.div_lt_of_lt_mul (by rwa [pow_succ, Nat.mul_comm] at h)
    rw [leBytes, leNat, ih hdiv, UInt8.toNat_ofNat']
    omega

theorem leInt_leIntBytes {k : Nat} {d : Int} (hlo : -256 ^ k ≤ 2 * d) (hhi : 2 * d < 256 ^ k) :
    leInt (leIntBytes k d) = d := by
  have hpow : (0 : Int) < 256 ^ k := Int.pow_pos (by decide)
  have hcast : ((256 ^ k : Nat) : Int) = 256 ^ k := Int.natCast_pow 256 k
  have hnonneg : 0 ≤ d % 256 ^ k := Int.emod_nonneg d hpow.ne'
  have hmod : d % 256 ^ k < 256 ^ k := Int.emod_lt_of_pos d hpow
  have hnat : leNat (leIntBytes k d) = (d % 256 ^ k).toNat := by
    apply leNat_leBytes
    omega
  rw [leInt, hnat, leIntBytes, length_leBytes]
  by_cases hneg : d < 0
  · have hval : d % 256 ^ k = d + 256 ^ k := by
      rw [← Int.add_emod_right, Int.emod_eq_of_lt (by omega) (by omega)]
    rw [if_neg (by omega)]
    omega
  · have hval : d % 256 ^ k = d := Int.emod_eq_of_lt (by omega) (by omega)
    rw [if_pos (by omega)]
    omega

theorem DataRun.length_bytes (r : DataRun) (prev : Nat) :
    (r.bytes prev).length = 1 + (r.lenSize + r.offSize) := by
  simp only [bytes, leIntBytes, List.length_append, List.length_cons, length_leBytes]
  omega

def Ends (tail : Bytes) : Prop := ∀ b ∈ tail.head?, b = 0

theorem runLoop_end {b : Bytes} {fuel i vcn : Nat} {lcn : Int} {tail : Bytes}
    (hdrop : b.drop i = tail) (hend : Ends tail) : runLoop b (fuel + 1) i vcn lcn = .ok [] := by
  rw [runLoop]
  by_cases hi : i < b.length
  · have hzero : b[i] = 0 := by
      apply hend
      rw [← hdrop, List.drop_eq_getElem_cons hi]
      rfl
    rw [if_pos hi, get_of_lt hi, ok_bind, if_pos hzero]
  · rw [if_neg hi]

theorem runLoop_encoded {b : Bytes} (hb : b.length < 2 ^ 32) {runs : List DataRun} {tail : Bytes}
    {fuel i vcn prev : Nat} (hdrop : b.drop i = runBytes prev runs ++ tail) (hend : Ends tail)
    (hcoded : RunsCoded prev runs) (hvcn : vcn + clusters runs < 2 ^ 64)
    (hfuel : b.length - i < fuel) :
    runLoop b fuel i vcn prev = .ok (placed vcn prev runs) := by
  induction runs generalizing fuel i vcn prev with
  | nil =>
    obtain ⟨fuel, rfl⟩ : ∃ k, fuel = k + 1 := ⟨fuel - 1, by omega⟩
    exact runLoop_end hdrop hend
  | cons r runs ih =>
    obtain ⟨⟨hplace, hdelta⟩, hrest⟩ := hcoded
    have hlen := r.lenSize_range
    have hoff := r.offSize_le
    have hlength := congrArg List.length hdrop
    rw [runBytes, List.length_append, List.length_append, r.length_bytes, List.length_drop]
      at hlength
    have hi : i < b.length := by omega
    obtain ⟨fuel, rfl⟩ : ∃ k, fuel = k + 1 := ⟨fuel - 1, by omega⟩
    have hshort : b.length - (i + 1 + (r.lenSize + r.offSize)) < fuel := by omega
    rw [clusters] at hvcn
    rw [List.drop_eq_getElem_cons hi, runBytes, DataRun.bytes] at hdrop
    simp only [List.cons_append, List.cons.injEq, List.append_assoc] at hdrop
    obtain ⟨hhead, hdrop⟩ := hdrop
    have hbyte : b[i].toNat = r.lenSize + 16 * r.offSize := by
      rw [hhead, UInt8.toNat_ofNat_of_lt']
      change _ < 256
      omega
    have hsizes : b[i].toNat % 16 = r.lenSize ∧ b[i].toNat / 16 = r.offSize := by omega
    have hentry : ¬ (b[i] = 0 ∨ r.lenSize = 0 ∨ r.lenSize > 8 ∨ r.offSize > 8 ∨
        r.lenSize + r.offSize > (b.drop (i + 1)).length) := by
      rintro (hzero | h | h | h | h)
      · rw [hzero, UInt8.toNat_zero] at hbyte
        omega
      · omega
      · omega
      · omega
      · rw [List.length_drop] at h
        omega
    have hcount : leNat ((b.drop (i + 1)).take r.lenSize) = r.count := by
      rw [hdrop, List.take_left' (length_leBytes ..), leNat_leBytes r.count_lt]
    have hbounds : -256 ^ r.offSize ≤ 2 * ((r.after prev : Int) - prev) ∧
        2 * ((r.after prev : Int) - prev) < 256 ^ r.offSize := by
      by_cases hhole : r.place = none
      · rw [r.hole_iff.mp hhole, DataRun.after, hhole, Option.getD_none]
        omega
      · exact hdelta hhole
    have hoffset : leInt (((b.drop (i + 1)).drop r.lenSize).take r.offSize) =
        (r.after prev : Int) - prev := by
      rw [hdrop, List.drop_left' (length_leBytes ..),
        List.take_left' (show (leIntBytes _ _).length = _ from length_leBytes ..),
        leInt_leIntBytes hbounds.1 hbounds.2]
    have hsum : (prev : Int) + ((r.after prev : Int) - prev) = r.after prev := by omega
    have hnext : b.drop (i + 1 + (r.lenSize + r.offSize)) =
        runBytes (r.after prev) runs ++ tail := by
      rw [← List.drop_drop, hdrop, ← List.append_assoc]
      apply List.drop_left'
      rw [List.length_append, length_leBytes, leIntBytes, length_leBytes]
    have hlcn : ((r.after prev : Int) % 2 ^ 64).toNat = r.after prev := by omega
    rw [runLoop_step hb hi fuel vcn prev hsizes.1 hsizes.2, if_neg hentry]
    simp only [hcount, hoffset]
    rw [addInt, if_pos (by omega), ok_bind, hsum, placed]
    by_cases hzero : r.count = 0
    · rw [if_pos hzero, if_pos hzero]
      exact ih hnext hrest (Nat.lt_of_le_of_lt (by omega) hvcn) hshort
    · rw [if_neg hzero, if_neg hzero, add_of_lt (by omega), ok_bind,
        ih hnext hrest (Nat.lt_of_le_of_lt (Nat.add_assoc ..).le hvcn) hshort, ok_bind, hlcn]
      rfl

theorem parseRuns_encoded {runs : List DataRun} {tail : Bytes}
    (hb : (runBytes 0 runs ++ tail).length < 2 ^ 32) (hend : Ends tail) (hcoded : RunsCoded 0 runs)
    (hvcn : clusters runs < 2 ^ 64) :
    parseRuns (runBytes 0 runs ++ tail) = .ok (placed 0 0 runs) :=
  runLoop_encoded hb rfl hend hcoded (by omega) (by omega)

/-- The byte of the disk that the driver reads for a byte of the content. -/
def readAddr (cs : Nat) : Nat → List DataRun → Nat → Nat
  | _, [], _ => 0
  | prev, r :: rest, p =>
    if p < r.count * cs then r.after prev * cs + p
    else readAddr cs (r.after prev) rest (p - r.count * cs)

def InHole (cs : Nat) : List DataRun → Nat → Prop
  | [], _ => False
  | r :: rest, p => if p < r.count * cs then r.place = none else InHole cs rest (p - r.count * cs)

/-- A byte of the content: that of the mapped cluster, or 0 in a hole. -/
def contentByte (m : Memory) (cs : Nat) : List DataRun → Nat → UInt8
  | [], _ => 0
  | r :: rest, p =>
    if p < r.count * cs then
      match r.place with
      | some lcn => m (lcn * cs + p)
      | none => 0
    else contentByte m cs rest (p - r.count * cs)

variable {m : Memory} {cs : Nat} {runs : List DataRun}

theorem contentByte_hole {p : Nat} (h : InHole cs runs p) : contentByte m cs runs p = 0 := by
  induction runs generalizing p with
  | nil => rfl
  | cons r rest ih =>
    rw [InHole] at h
    rw [contentByte]
    split at h
    next hp => rw [if_pos hp, h]
    next hp => rw [if_neg hp, ih h]

theorem contentByte_mapped {prev p : Nat} (h : ¬ InHole cs runs p) (hp : p < clusters runs * cs) :
    contentByte m cs runs p = m (readAddr cs prev runs p) := by
  induction runs generalizing prev p with
  | nil =>
    rw [clusters, Nat.zero_mul] at hp
    omega
  | cons r rest ih =>
    rw [InHole] at h
    rw [contentByte, readAddr]
    split at h
    next hin =>
      obtain ⟨lcn, hlcn⟩ := Option.ne_none_iff_exists'.mp h
      rw [if_pos hin, if_pos hin, DataRun.after, hlcn, Option.getD_some]
    next hout =>
      rw [clusters, Nat.add_mul] at hp
      rw [if_neg hout, if_neg hout, ih h (by omega)]

theorem readAddr_mapped {prev p limit : Nat} (h : ¬ InHole cs runs p) (hp : p < clusters runs * cs)
    (hmapped : ∀ r ∈ runs, ∀ lcn, r.place = some lcn → (lcn + r.count) * cs ≤ limit) :
    readAddr cs prev runs p < limit := by
  induction runs generalizing prev p with
  | nil =>
    rw [clusters, Nat.zero_mul] at hp
    omega
  | cons r rest ih =>
    rw [InHole] at h
    rw [readAddr]
    split at h
    next hin =>
      obtain ⟨lcn, hlcn⟩ := Option.ne_none_iff_exists'.mp h
      have hle := hmapped r (List.mem_cons_self ..) lcn hlcn
      rw [Nat.add_mul] at hle
      rw [if_pos hin, DataRun.after, hlcn, Option.getD_some]
      omega
    next hout =>
      rw [clusters, Nat.add_mul] at hp
      rw [if_neg hout]
      exact ih h (by omega) fun r' hr' => hmapped r' (List.mem_cons_of_mem r hr')

theorem placed_eq_nil {vcn prev : Nat} : placed vcn prev runs = [] ↔ clusters runs = 0 := by
  induction runs generalizing vcn prev with
  | nil => exact ⟨fun _ => rfl, fun _ => rfl⟩
  | cons r rest ih =>
    rw [placed, clusters]
    by_cases hzero : r.count = 0
    · rw [if_pos hzero, hzero, Nat.zero_add]
      exact ih
    · rw [if_neg hzero]
      simp [hzero]

theorem placed_ok {vcn prev : Nat} (h : vcn + clusters runs < 2 ^ 64) :
    RunsOk (placed vcn prev runs) := by
  induction runs generalizing vcn prev with
  | nil => simp [placed, RunsOk]
  | cons r rest ih =>
    rw [clusters] at h
    rw [placed]
    split
    · exact ih (by omega)
    · intro run hrun
      rcases List.mem_cons.mp hrun with rfl | hrun
      · change vcn + r.count < 2 ^ 64
        omega
      · exact ih (by omega) run hrun

theorem runAt_placed (hcs : 0 < cs) {vcn prev p : Nat} (hlo : vcn * cs ≤ p)
    (hhi : p < (vcn + clusters runs) * cs) :
    ∃ run, runAt (placed vcn prev runs) (p / cs) = some run ∧
      (run.lcn + (p / cs - run.vcn)) * cs + p % cs = readAddr cs prev runs (p - vcn * cs) := by
  induction runs generalizing vcn prev with
  | nil =>
    rw [clusters, Nat.add_zero] at hhi
    omega
  | cons r rest ih =>
    rw [clusters] at hhi
    rw [readAddr, placed]
    have hnext : (vcn + r.count) * cs = vcn * cs + r.count * cs := Nat.add_mul ..
    have hdiv : vcn ≤ p / cs := (Nat.le_div_iff_mul_le hcs).mpr hlo
    by_cases hin : p - vcn * cs < r.count * cs
    · have hne : r.count ≠ 0 := by
        intro hzero
        rw [hzero, Nat.zero_mul] at hin
        omega
      have hlt : p / cs < vcn + r.count := (Nat.div_lt_iff_lt_mul hcs).mpr (by omega)
      have hdm := Nat.div_add_mod' p cs
      have hsub : (p / cs - vcn) * cs = p / cs * cs - vcn * cs := Nat.sub_mul ..
      have hle : vcn * cs ≤ p / cs * cs := Nat.mul_le_mul_right cs hdiv
      rw [if_pos hin, if_neg hne]
      refine ⟨⟨vcn, r.after prev, r.count⟩, ?_, ?_⟩
      · simp [runAt, hdiv, hlt]
      · simp only [Nat.add_mul, hsub]
        omega
    · rw [if_neg hin]
      have hge : vcn + r.count ≤ p / cs := (Nat.le_div_iff_mul_le hcs).mpr (by omega)
      obtain ⟨run, hrun, haddr⟩ := @ih (vcn + r.count) (r.after prev) (by omega)
        (by rwa [← Nat.add_assoc] at hhi)
      have hsub : p - (vcn + r.count) * cs = p - vcn * cs - r.count * cs := by omega
      rw [hsub] at haddr
      refine ⟨run, ?_, haddr⟩
      split
      next hzero =>
        rw [hzero, Nat.add_zero] at hrun
        exact hrun
      next hne =>
        rw [runAt, List.find?_cons_of_neg]
        · exact hrun
        · simp only [decide_eq_true_eq]
          omega

end Vibra.Ntfs
