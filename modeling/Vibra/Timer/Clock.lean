import Mathlib.Algebra.Order.Floor.Semifield
import Mathlib.Data.Nat.Cast.Order.Field
import Mathlib.Data.Rat.Floor
import Mathlib.Data.UInt
import Vibra.Lib.Checked

/-! # The monotone clock

The ticks of a counter become nanoseconds by a multiplication with a number of 32.32 bits. The
counter of the HPET is read in two halves, its high half twice.
-/

namespace Vibra.Timer

open Lib (Outcome)

def nsPerSec : UInt64 := 1000000000

def timerHz : UInt64 := 100

inductive ClockSource where
  | none
  | tsc
  | hpet
  | pitIrq

def q32NsPerTick (hz : UInt64) : UInt64 :=
  if hz = 0 then 0 else UInt64.ofNat ((nsPerSec.toNat <<< 32) / hz.toNat)

structure Clock where
  source : ClockSource
  sourceHz : UInt64
  nsPerTickQ32 : UInt64
  baseRaw : UInt64

namespace Clock

def setSource (src : ClockSource) (hz baseRaw : UInt64) : Clock where
  source := src
  sourceHz := hz
  nsPerTickQ32 := q32NsPerTick hz
  baseRaw := baseRaw

def rawToNs (c : Clock) (raw : UInt64) : UInt64 :=
  let delta := raw - c.baseRaw
  UInt64.ofNat ((delta.toNat * c.nsPerTickQ32.toNat) >>> 32)

def nowNs (c : Clock) (tsc hpet ticks : UInt64) : UInt64 :=
  match c.source with
  | .tsc => c.rawToNs tsc
  | .hpet => c.rawToNs hpet
  | .pitIrq => UInt64.ofNat (min (ticks.toNat * (nsPerSec / timerHz).toNat) (2 ^ 64 - 1))
  | .none => 0

end Clock

/-- The ticks from `base` to `raw`, in nanoseconds. -/
def exactNs (hz base raw : UInt64) : ℚ := (raw.toNat - base.toNat) * 10 ^ 9 / hz.toNat

section Scaled

variable (ticks num den : Nat) {scale : Nat}

theorem scaled_le (hscale : 0 < scale) :
    ((ticks * (num * scale / den) / scale : Nat) : ℚ) ≤ ticks * num / den := by
  have hpos : (0 : ℚ) < scale := Nat.cast_pos.mpr hscale
  calc ((ticks * (num * scale / den) / scale : Nat) : ℚ)
      ≤ (ticks * (num * scale / den) : Nat) / scale := Nat.cast_div_le
    _ = ticks * (num * scale / den : Nat) / scale := by rw [Nat.cast_mul]
    _ ≤ ticks * ((num * scale : Nat) / den) / scale := by gcongr; exact Nat.cast_div_le
    _ = ticks * num / den := by rw [Nat.cast_mul]; field_simp

theorem lt_scaled (hscale : 0 < scale) :
    (ticks * num / den : ℚ) <
      (ticks * (num * scale / den) / scale : Nat) + (1 + ticks / scale) := by
  have hpos : (0 : ℚ) < scale := Nat.cast_pos.mpr hscale
  have hmult : ((num * scale : Nat) : ℚ) / den ≤ (num * scale / den : Nat) + 1 := by
    rw [← Nat.floor_div_eq_div (K := ℚ)]
    exact (Nat.lt_floor_add_one _).le
  have hshift : ((ticks * (num * scale / den) : Nat) : ℚ) / scale <
      (ticks * (num * scale / den) / scale : Nat) + 1 := by
    rw [← Nat.floor_div_eq_div (K := ℚ) _ scale]
    exact Nat.lt_floor_add_one _
  calc (ticks * num / den : ℚ) = ticks * ((num * scale : Nat) / den) / scale := by
        rw [Nat.cast_mul]; field_simp
    _ ≤ ticks * ((num * scale / den : Nat) + 1) / scale := by gcongr
    _ = (ticks * (num * scale / den) : Nat) / scale + ticks / scale := by
        rw [Nat.cast_mul]; ring
    _ < _ := by linarith

end Scaled

namespace Clock

variable {src : ClockSource} {hz base raw raw' : UInt64}

theorem q32NsPerTick_toNat (h : hz ≠ 0) :
    (q32NsPerTick hz).toNat = 10 ^ 9 * 2 ^ 32 / hz.toNat := by
  have hle : 10 ^ 9 * 2 ^ 32 / hz.toNat ≤ 10 ^ 9 * 2 ^ 32 := Nat.div_le_self _ _
  rw [q32NsPerTick, if_neg h, UInt64.toNat_ofNat', Nat.shiftLeft_eq]
  exact Nat.mod_eq_of_lt (Nat.lt_of_le_of_lt hle (by decide))

theorem rawToNs_eq (h : hz ≠ 0) (hbase : base ≤ raw) :
    (setSource src hz base).rawToNs raw =
      UInt64.ofNat ((raw.toNat - base.toNat) * (10 ^ 9 * 2 ^ 32 / hz.toNat) / 2 ^ 32) := by
  rw [rawToNs, setSource]
  dsimp only
  rw [q32NsPerTick_toNat h, UInt64.toNat_sub_of_le _ _ hbase, Nat.shiftRight_eq_div_pow]

theorem exactNs_eq (hbase : base ≤ raw) :
    exactNs hz base raw = (raw.toNat - base.toNat : Nat) * (10 ^ 9 : Nat) / hz.toNat := by
  rw [exactNs, Nat.cast_sub (UInt64.le_iff_toNat_le.mp hbase), Nat.cast_pow, Nat.cast_ofNat]

theorem exactNs_mono (h : raw ≤ raw') : exactNs hz base raw ≤ exactNs hz base raw' := by
  have hle : (raw.toNat : ℚ) ≤ raw'.toNat := Nat.cast_le.mpr (UInt64.le_iff_toNat_le.mp h)
  unfold exactNs
  gcongr

theorem rawToNs_toNat (h : hz ≠ 0) (hbase : base ≤ raw) (hexact : exactNs hz base raw < 2 ^ 64) :
    ((setSource src hz base).rawToNs raw).toNat =
      (raw.toNat - base.toNat) * (10 ^ 9 * 2 ^ 32 / hz.toNat) / 2 ^ 32 := by
  have hle := scaled_le (raw.toNat - base.toNat) (10 ^ 9) hz.toNat (by decide : 0 < 2 ^ 32)
  rw [← exactNs_eq hbase] at hle
  have hlt : (raw.toNat - base.toNat) * (10 ^ 9 * 2 ^ 32 / hz.toNat) / 2 ^ 32 < 2 ^ 64 := by
    exact_mod_cast hle.trans_lt hexact
  rw [rawToNs_eq h hbase, UInt64.toNat_ofNat', Nat.mod_eq_of_lt hlt]

theorem rawToNs_mono (h : hz ≠ 0) (hbase : base ≤ raw) (hle : raw ≤ raw')
    (hexact : exactNs hz base raw' < 2 ^ 64) :
    (setSource src hz base).rawToNs raw ≤ (setSource src hz base).rawToNs raw' := by
  have hsub : raw.toNat - base.toNat ≤ raw'.toNat - base.toNat :=
    Nat.sub_le_sub_right (UInt64.le_iff_toNat_le.mp hle) _
  rw [UInt64.le_iff_toNat_le, rawToNs_toNat h hbase ((exactNs_mono hle).trans_lt hexact),
    rawToNs_toNat h (UInt64.le_trans hbase hle) hexact]
  exact Nat.div_le_div_right (Nat.mul_le_mul_right _ hsub)

theorem rawToNs_error (h : hz ≠ 0) (hbase : base ≤ raw) (hexact : exactNs hz base raw < 2 ^ 64) :
    |(((setSource src hz base).rawToNs raw).toNat : ℚ) - exactNs hz base raw| ≤
      1 + (raw.toNat - base.toNat) / 2 ^ 32 := by
  have hle := scaled_le (raw.toNat - base.toNat) (10 ^ 9) hz.toNat (by decide : 0 < 2 ^ 32)
  have hlt := lt_scaled (raw.toNat - base.toNat) (10 ^ 9) hz.toNat (by decide : 0 < 2 ^ 32)
  rw [← exactNs_eq hbase] at hle hlt
  rw [Nat.cast_sub (UInt64.le_iff_toNat_le.mp hbase), Nat.cast_pow, Nat.cast_ofNat] at hlt
  rw [rawToNs_toNat h hbase hexact, abs_sub_comm, abs_of_nonneg (sub_nonneg.mpr hle)]
  linarith

end Clock

/-! ## The counter of the HPET -/

section Counter

/-- `read32` of the high half, as the `k`-th read of a register. -/
def readHigh (counter : Nat → Nat) (k : Nat) : UInt32 := UInt32.ofNat (counter k / 2 ^ 32)

def readLow (counter : Nat → Nat) (k : Nat) : UInt32 := UInt32.ofNat (counter k)

/-- `counter k` is what the counter has counted up to the `k`-th read of a register; the register
has its low 64 bits. The call begins with the read number `k`; the number behind its last read is
returned too. -/
def readCounter (ready : Bool) (counter : Nat → Nat) :
    (fuel k : Nat) → Outcome Empty (UInt64 × Nat)
  | 0, _ => .diverge
  | fuel + 1, k =>
    if ready = false then .ok (0, k)
    else
      let hi1 := (readHigh counter k).toUInt64
      let lo := (readLow counter (k + 1)).toUInt64
      let hi2 := (readHigh counter (k + 2)).toUInt64
      if hi1 = hi2 then .ok (hi2 <<< 32 ||| lo, k + 3) else readCounter ready counter fuel (k + 3)

variable {counter : Nat → Nat} {k fuel : Nat}

def Torn (counter : Nat → Nat) (k : Nat) : Prop :=
  (readHigh counter k).toUInt64 ≠ (readHigh counter (k + 2)).toUInt64

/-- Fewer than 2^32 increments between the first read of the call at `k` and any other that it
makes. -/
def Slow (counter : Nat → Nat) (k : Nat) : Prop :=
  ∀ turns, (∀ j < turns, Torn counter (k + 3 * j)) →
    counter (k + 3 * turns + 2) < counter k + 2 ^ 32

theorem torn_iff : Torn counter k ↔
    counter k / 2 ^ 32 % 2 ^ 32 ≠ counter (k + 2) / 2 ^ 32 % 2 ^ 32 := by
  rw [Torn, ne_eq, ne_eq, ← UInt64.toNat_inj, UInt32.toNat_toUInt64, UInt32.toNat_toUInt64,
    readHigh, readHigh, UInt32.toNat_ofNat', UInt32.toNat_ofNat']

theorem halves_toNat (hi lo : UInt32) :
    (hi.toUInt64 <<< 32 ||| lo.toUInt64).toNat = 2 ^ 32 * hi.toNat + lo.toNat := by
  have hhi := hi.toNat_lt
  have hlo : lo.toNat < 2 ^ 32 := lo.toNat_lt
  have hshift : (hi.toUInt64 <<< 32).toNat = hi.toNat <<< 32 := by
    rw [UInt64.toNat_shiftLeft, UInt32.toNat_toUInt64]
    exact Nat.mod_eq_of_lt (by rw [Nat.shiftLeft_eq]; change hi.toNat * 2 ^ 32 < _; omega)
  rw [UInt64.toNat_or, hshift, UInt32.toNat_toUInt64, ← Nat.shiftLeft_add_eq_or_of_lt hlo,
    Nat.shiftLeft_eq, Nat.mul_comm]

theorem turn_value (hmono : Monotone counter) (hslow : counter (k + 2) < counter k + 2 ^ 32)
    (htorn : ¬ Torn counter k) :
    (readHigh counter (k + 2)).toUInt64 <<< 32 ||| (readLow counter (k + 1)).toUInt64 =
      UInt64.ofNat (counter (k + 1)) := by
  have hlow : counter k ≤ counter (k + 1) := hmono (Nat.le_succ k)
  have hhigh : counter (k + 1) ≤ counter (k + 2) := hmono (Nat.le_succ (k + 1))
  rw [torn_iff, not_not] at htorn
  have hsame : counter (k + 2) / 2 ^ 32 = counter (k + 1) / 2 ^ 32 := by omega
  rw [← UInt64.toNat_inj, halves_toNat, readHigh, readLow, UInt32.toNat_ofNat',
    UInt32.toNat_ofNat', UInt64.toNat_ofNat', hsame]
  exact (Nat.add_comm ..).trans (Nat.mod_mul (x := counter (k + 1))).symm

theorem turn_after_torn (hmono : Monotone counter) (hslow : counter (k + 5) < counter k + 2 ^ 32)
    (htorn : Torn counter k) : ¬ Torn counter (k + 3) := by
  have hlow : counter k / 2 ^ 32 ≤ counter (k + 2) / 2 ^ 32 :=
    Nat.div_le_div_right (hmono (Nat.le_add_right k 2))
  have hmid : counter (k + 2) / 2 ^ 32 ≤ counter (k + 3) / 2 ^ 32 :=
    Nat.div_le_div_right (hmono (Nat.le_succ (k + 2)))
  have hhigh : counter (k + 3) / 2 ^ 32 ≤ counter (k + 5) / 2 ^ 32 :=
    Nat.div_le_div_right (hmono (Nat.le_add_right (k + 3) 2))
  rw [torn_iff] at htorn
  have hnext : counter k / 2 ^ 32 ≠ counter (k + 2) / 2 ^ 32 := fun h => htorn (by rw [h])
  rw [torn_iff, not_not]
  clear htorn
  exact congrArg (· % 2 ^ 32) (show counter (k + 3) / 2 ^ 32 = counter (k + 5) / 2 ^ 32 by omega)

theorem readCounter_torn (htorn : Torn counter k) :
    readCounter true counter (fuel + 1) k = readCounter true counter fuel (k + 3) := by
  rw [readCounter, if_neg Bool.noConfusion]
  exact if_neg htorn

theorem readCounter_whole (hmono : Monotone counter) (hslow : counter (k + 2) < counter k + 2 ^ 32)
    (htorn : ¬ Torn counter k) :
    readCounter true counter (fuel + 1) k = .ok (UInt64.ofNat (counter (k + 1)), k + 3) := by
  rw [readCounter, if_neg Bool.noConfusion, ← turn_value hmono hslow htorn]
  exact if_pos (not_not.mp htorn)

theorem readCounter_eq (hmono : Monotone counter) (hslow : Slow counter k) :
    ∃ moment next, k ≤ moment ∧ moment < next ∧ ∀ fuel, 2 ≤ fuel →
      readCounter true counter fuel k = .ok (UInt64.ofNat (counter moment), next) := by
  have hfirst : counter (k + 2) < counter k + 2 ^ 32 := hslow 0 (fun j hj => nomatch hj)
  by_cases htorn : Torn counter k
  · have hsecond : counter (k + 5) < counter k + 2 ^ 32 := hslow 1 fun j hj => by
      rwa [Nat.lt_one_iff.mp hj]
    have hrest : counter (k + 3 + 2) < counter (k + 3) + 2 ^ 32 :=
      Nat.lt_of_lt_of_le hsecond (Nat.add_le_add_right (hmono (Nat.le_add_right k 3)) _)
    refine ⟨k + 4, k + 6, by omega, by omega, fun fuel hfuel => ?_⟩
    obtain ⟨fuel, rfl⟩ := Nat.exists_eq_add_of_le' hfuel
    rw [readCounter_torn htorn, readCounter_whole hmono hrest (turn_after_torn hmono hsecond htorn)]
  · refine ⟨k + 1, k + 3, by omega, by omega, fun fuel hfuel => ?_⟩
    obtain ⟨fuel, rfl⟩ := Nat.exists_eq_add_of_le' hfuel
    exact readCounter_whole hmono hfirst htorn

theorem readCounter_mono (hmono : Monotone counter) {k' next next' : Nat} {value value' : UInt64}
    (hslow : Slow counter k) (hslow' : Slow counter k') (hfuel : 2 ≤ fuel)
    (hcall : readCounter true counter fuel k = .ok (value, next)) (hnext : next ≤ k')
    (hcall' : readCounter true counter fuel k' = .ok (value', next'))
    (hwrap : counter (next' - 1) / 2 ^ 64 = counter k / 2 ^ 64) : value ≤ value' := by
  obtain ⟨moment, last, hlo, hhi, hread⟩ := readCounter_eq hmono hslow
  obtain ⟨moment', last', hlo', hhi', hread'⟩ := readCounter_eq hmono hslow'
  obtain ⟨rfl, rfl⟩ := Prod.mk.inj (Outcome.ok.inj ((hread fuel hfuel).symm.trans hcall))
  obtain ⟨rfl, rfl⟩ := Prod.mk.inj (Outcome.ok.inj ((hread' fuel hfuel).symm.trans hcall'))
  have hfrom : counter k ≤ counter moment := hmono hlo
  have hbetween : counter moment ≤ counter moment' := hmono (by omega)
  have hto : counter moment' ≤ counter (last' - 1) := hmono (Nat.le_sub_one_of_lt hhi')
  rw [UInt64.le_iff_toNat_le, UInt64.toNat_ofNat', UInt64.toNat_ofNat']
  omega

end Counter

/-- The nanoseconds grow with the counter and are right up to the truncation of the multiplier and
of the result; and a call of `read_counter` returns a value that the counter has during the call,
so that later calls do not return smaller ones. -/
theorem clock_accurate (src : ClockSource) {hz base : UInt64} (h : hz ≠ 0) {raw : Nat → UInt64}
    (hraw : ∀ i j, i ≤ j → raw i ≤ raw j) (hbase : ∀ i, base ≤ raw i) {counter : Nat → Nat}
    (hmono : Monotone counter) :
    (∀ i j, i ≤ j → exactNs hz base (raw j) < 2 ^ 64 →
      (Clock.setSource src hz base).rawToNs (raw i) ≤
        (Clock.setSource src hz base).rawToNs (raw j)) ∧
    (∀ i, exactNs hz base (raw i) < 2 ^ 64 →
      |(((Clock.setSource src hz base).rawToNs (raw i)).toNat : ℚ) - exactNs hz base (raw i)| ≤
        1 + ((raw i).toNat - base.toNat) / 2 ^ 32) ∧
    (∀ k, Slow counter k → ∃ moment next, k ≤ moment ∧ moment < next ∧ ∀ fuel, 2 ≤ fuel →
      readCounter true counter fuel k = .ok (UInt64.ofNat (counter moment), next)) ∧
    (∀ k k' next next' fuel value value', Slow counter k → Slow counter k' → 2 ≤ fuel →
      readCounter true counter fuel k = .ok (value, next) → next ≤ k' →
      readCounter true counter fuel k' = .ok (value', next') →
      counter (next' - 1) / 2 ^ 64 = counter k / 2 ^ 64 → value ≤ value') := by
  refine ⟨fun i j hij hexact => ?_, fun i hexact => ?_, fun k hslow => ?_, ?_⟩
  · exact Clock.rawToNs_mono h (hbase i) (hraw i j hij) hexact
  · exact Clock.rawToNs_error h (hbase i) hexact
  · exact readCounter_eq hmono hslow
  · intro k k' next next' fuel value value' hslow hslow' hfuel hcall hnext hcall' hwrap
    exact readCounter_mono hmono hslow hslow' hfuel hcall hnext hcall' hwrap

def carrying (k : Nat) : Nat := 2 ^ 32 - 4 + 3 * k

theorem carrying_slow : Slow carrying 0 := by
  intro turns htorn
  have hsecond : ¬ Torn carrying 3 := by
    rw [torn_iff]
    decide
  have hturns : turns < 2 := Nat.lt_of_not_le fun h => hsecond (htorn 1 h)
  unfold carrying
  omega

theorem clock_accurate_carrying :
    (Clock.setSource .hpet 10000000 5).rawToNs 5 ≤ (Clock.setSource .hpet 10000000 5).rawToNs 1000 ∧
    ∃ moment next, 0 ≤ moment ∧ moment < next ∧ ∀ fuel, 2 ≤ fuel →
      readCounter true carrying fuel 0 = .ok (UInt64.ofNat (carrying moment), next) := by
  have haccurate := @clock_accurate .hpet 10000000 5 (by decide) (fun i => if i = 0 then 5 else 1000)
    (fun i j hij => by split <;> split <;> first | decide | omega)
    (fun i => by split <;> decide) carrying (fun i j hij => by unfold carrying; omega)
  have hexact : exactNs 10000000 5 1000 = ((1000 : Nat) - (5 : Nat)) * 10 ^ 9 / (10000000 : Nat) :=
    rfl
  refine ⟨haccurate.1 0 1 (Nat.zero_le _) ?_, haccurate.2.2.1 0 carrying_slow⟩
  rw [if_neg Nat.one_ne_zero, hexact]
  norm_num

end Vibra.Timer
