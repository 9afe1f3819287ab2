import Mathlib.Tactic.Ring
import Vibra.Lib.Gregorian

/-! # The calendar of the clock

Days from the epoch for a date and back, with the truncating division of the source.
-/

namespace Vibra.Timer

open Lib.Gregorian

def daysFromCivil (y m d : Int) : Int :=
  let y := if m ≤ 2 then y - 1 else y
  let era := (if 0 ≤ y then y else y - 399).tdiv 400
  let yoe := y - era * 400
  let mp := (m + 9).tmod 12
  let doy := (153 * mp + 2).tdiv 5 + d - 1
  let doe := yoe * 365 + yoe.tdiv 4 - yoe.tdiv 100 + doy
  era * 146097 + doe - 719468

def civilFromDays (z : Int) : Int × UInt32 × UInt32 :=
  let z := z + 719468
  let era := (if 0 ≤ z then z else z - 146096).tdiv 146097
  let doe := z - era * 146097
  let yoe := (doe - doe.tdiv 1460 + doe.tdiv 36524 - doe.tdiv 146096).tdiv 365
  let y := yoe + era * 400
  let doy := doe - (365 * yoe + yoe.tdiv 4 - yoe.tdiv 100)
  let mp := (5 * doy + 2).tdiv 153
  let d := doy - (153 * mp + 2).tdiv 5 + 1
  let m := if mp < 10 then mp + 3 else mp - 9
  (if m ≤ 2 then y + 1 else y, UInt32.ofInt m, UInt32.ofInt d)

structure RtcTime where
  year : UInt16
  month : UInt8
  day : UInt8
  hour : UInt8
  minute : UInt8
  second : UInt8

namespace RtcTime

def toUnix (t : RtcTime) : Nat :=
  let days := daysFromCivil t.year.toNat t.month.toNat t.day.toNat
  let secs := days * 86400 + t.hour.toNat * 3600 + t.minute.toNat * 60 + t.second.toNat
  if secs < 0 then 0 else secs.toNat

def isValid (t : RtcTime) : Bool :=
  1970 ≤ t.year && t.year ≤ 2199 && (1 ≤ t.month && t.month ≤ 12) &&
    (1 ≤ t.day && t.day ≤ 31) && t.hour < 24 && t.minute < 60 && t.second < 60

end RtcTime

structure DateTime where
  unix : Nat
  year : Int
  month : UInt32
  day : UInt32
  hour : UInt32
  minute : UInt32
  second : UInt32

def DateTime.fromUnix (unix : Nat) : DateTime :=
  let days : Int := (unix / 86400 : Nat)
  let rem := unix % 86400
  let (year, month, day) := civilFromDays days
  { unix, year, month, day,
    hour := UInt32.ofNat (rem / 3600)
    minute := UInt32.ofNat (rem % 3600 / 60)
    second := UInt32.ofNat (rem % 60) }

theorem tdiv_floor (y : Int) {n : Int} (hn : 0 < n) :
    (if 0 ≤ y then y else y - (n - 1)).tdiv n = y / n := by
  split
  · exact Int.tdiv_eq_ediv_of_nonneg ‹_›
  · have hneg : y - (n - 1) = -(n - 1 - y) := by ring
    rw [hneg, Int.neg_tdiv, Int.tdiv_eq_ediv_of_nonneg (by omega)]
    have hsplit := Int.mul_ediv_add_emod (n - 1 - y) n
    have hpos := Int.emod_nonneg (n - 1 - y) hn.ne'
    have hlt := Int.emod_lt_of_pos (n - 1 - y) hn
    have hunique : y / n = -((n - 1 - y) / n) ∧ y % n = n - 1 - (n - 1 - y) % n :=
      (Int.ediv_emod_unique hn).mpr ⟨by linarith, by omega, by omega⟩
    exact hunique.1.symm

/-- The date that `civil_from_days` returns. -/
def civilDate (civil : Int × UInt32 × UInt32) : Date :=
  ⟨civil.1, civil.2.1.toNat, civil.2.2.toNat⟩

theorem daysFromCivil_eq (y d : Int) {m : Int} (hm : 1 ≤ m) :
    daysFromCivil y m d = Date.number ⟨y, m, d⟩ - 719468 := by
  rw [daysFromCivil]
  rw [show (399 : Int) = 400 - 1 from rfl, tdiv_floor _ (by decide)]
  rw [Date.number, Date.dayOfYear, Date.marchMonth]
  show _ = yearStart (if m ≤ 2 then y - 1 else y) + _ - _
  generalize (if m ≤ 2 then y - 1 else y) = year
  dsimp only
  rw [Int.tmod_eq_emod_of_nonneg (by omega), Int.tdiv_eq_ediv_of_nonneg (by omega),
    Int.tdiv_eq_ediv_of_nonneg (by omega), Int.tdiv_eq_ediv_of_nonneg (by omega)]
  have hfour : (year - year / 400 * 400) / 4 = year / 4 - year / 400 * 100 := by omega
  have hcentury : (year - year / 400 * 400) / 100 = year / 100 - year / 400 * 4 := by omega
  rw [hfour, hcentury]
  unfold yearStart monthStart
  omega

theorem toNat_ofInt {m : Int} (hpos : 0 ≤ m) (hlt : m < 2 ^ 32) :
    ((UInt32.ofInt m).toNat : Int) = m := by
  rw [UInt32.ofInt, UInt32.toNat_ofNat']
  omega

theorem civilFromDays_eq (z : Int) :
    civilDate (civilFromDays z) = Date.ofNumber (z + 719468) := by
  have hera : (if 0 ≤ z + 719468 then z + 719468 else z + 719468 - 146096).tdiv 146097 =
      (z + 719468) / 146097 := tdiv_floor (z + 719468) (show (0 : Int) < 146097 by decide)
  rw [civilFromDays, hera]
  generalize z + 719468 = n
  rw [show n - n / 146097 * 146097 = n % 146097 by omega, Date.ofNumber]
  obtain ⟨hyear, hyear', hle, hlt⟩ :=
    yearOfCycle_spec (show 0 ≤ n % 146097 by omega) (by omega)
  rw [yearStart_succ] at hlt
  have hstart : yearStart (yearOfCycle (n % 146097)) = 365 * yearOfCycle (n % 146097) +
      yearOfCycle (n % 146097) / 4 - yearOfCycle (n % 146097) / 100 := by
    unfold yearStart
    omega
  have hyoe : (n % 146097 - (n % 146097).tdiv 1460 + (n % 146097).tdiv 36524 -
      (n % 146097).tdiv 146096).tdiv 365 = yearOfCycle (n % 146097) := by
    have hpos : 0 ≤ n % 146097 := by omega
    rw [Int.tdiv_eq_ediv_of_nonneg (b := 1460) hpos, Int.tdiv_eq_ediv_of_nonneg (b := 36524) hpos,
      Int.tdiv_eq_ediv_of_nonneg (b := 146096) hpos, Int.tdiv_eq_ediv_of_nonneg (by omega)]
    rfl
  rw [hyoe]
  generalize yearOfCycle (n % 146097) = yoe at *
  rw [Int.tdiv_eq_ediv_of_nonneg hyear, Int.tdiv_eq_ediv_of_nonneg hyear, ← hstart]
  have hdoy : 0 ≤ n % 146097 - yearStart yoe ∧ n % 146097 - yearStart yoe ≤ 365 := by
    split at hlt <;> omega
  generalize n % 146097 - yearStart yoe = doy at *
  obtain ⟨hmonth, hmonth', hfirst, hlast⟩ := monthStart_le hdoy.1 hdoy.2
  rw [Int.tdiv_eq_ediv_of_nonneg (show 0 ≤ 5 * doy + 2 by omega), Date.ofMarch]
  generalize (5 * doy + 2) / 153 = mp at *
  rw [Int.tdiv_eq_ediv_of_nonneg (show 0 ≤ 153 * mp + 2 by omega)]
  unfold monthStart at *
  rw [civilDate, toNat_ofInt (by split <;> omega) (by split <;> omega),
    toNat_ofInt (by omega) (by omega)]

theorem daysFromCivil_date {date : Date} (h : date.Valid) :
    daysFromCivil date.year date.month date.day = date.number - 719468 :=
  daysFromCivil_eq date.year date.day h.month_pos

theorem civilFromDays_daysFromCivil {date : Date} (h : date.Valid) :
    civilDate (civilFromDays (daysFromCivil date.year date.month date.day)) = date := by
  rw [civilFromDays_eq, daysFromCivil_date h, Int.sub_add_cancel, Date.ofNumber_number h]

theorem daysFromCivil_civilFromDays (z : Int) :
    (civilDate (civilFromDays z)).Valid ∧
      daysFromCivil (civilDate (civilFromDays z)).year (civilDate (civilFromDays z)).month
        (civilDate (civilFromDays z)).day = z := by
  rw [civilFromDays_eq]
  obtain ⟨hvalid, hnumber⟩ := Date.ofNumber_spec (z + 719468)
  refine ⟨hvalid, ?_⟩
  rw [daysFromCivil_date hvalid, hnumber, Int.add_sub_cancel]

def RtcTime.date (t : RtcTime) : Date := ⟨t.year.toNat, t.month.toNat, t.day.toNat⟩

/-- The two have the same fields. -/
def DateTime.Shows (d : DateTime) (t : RtcTime) : Prop :=
  d.year = t.year.toNat ∧ d.month.toNat = t.month.toNat ∧ d.day.toNat = t.day.toNat ∧
    d.hour.toNat = t.hour.toNat ∧ d.minute.toNat = t.minute.toNat ∧
    d.second.toNat = t.second.toNat

instance (d : DateTime) (t : RtcTime) : Decidable (d.Shows t) :=
  inferInstanceAs (Decidable (_ ∧ _))

namespace RtcTime

/-- The time of day, and a day of a month from 1970 on that need not exist. -/
structure InRange (t : RtcTime) : Prop where
  year : 1970 ≤ t.year.toNat
  month_pos : 1 ≤ t.month.toNat
  month_le : t.month.toNat ≤ 12
  day_pos : 1 ≤ t.day.toNat
  hour : t.hour.toNat < 24
  minute : t.minute.toNat < 60
  second : t.second.toNat < 60

theorem inRange_of_isValid {t : RtcTime} (h : t.isValid) : t.InRange := by
  simp only [isValid, Bool.and_eq_true, decide_eq_true_eq, UInt16.le_iff_toNat_le,
    UInt8.le_iff_toNat_le, UInt8.lt_iff_toNat_lt] at h
  obtain ⟨⟨⟨⟨⟨⟨hyear, -⟩, hmonth, hmonth'⟩, hday, -⟩, hhour⟩, hminute⟩, hsecond⟩ := h
  exact ⟨hyear, hmonth, hmonth', hday, hhour, hminute, hsecond⟩

variable {t : RtcTime}

theorem InRange.number_le (h : t.InRange) : 719468 ≤ t.date.number := by
  obtain ⟨hyear, hmonth, hmonth', hday, -, -, -⟩ := h
  rw [Date.number, Date.dayOfYear, Date.marchYear, Date.marchMonth, date]
  dsimp only
  have hepoch : yearStart 1969 = 719162 ∧ yearStart 1970 = 719527 := by decide
  split
  · -- January and February are the last months of their year
    have hlast : ((t.month.toNat : Int) + 9) % 12 = t.month.toNat + 9 := by omega
    have hjanuary : monthStart 10 = 306 := rfl
    have := yearStart_mono (show (1969 : Int) ≤ t.year.toNat - 1 by omega)
    have := monthStart_mono (show (10 : Int) ≤ ((t.month.toNat : Int) + 9) % 12 by omega)
    omega
  · have hmarch : monthStart 0 = 0 := rfl
    have := yearStart_mono (show (1970 : Int) ≤ t.year.toNat by omega)
    have := monthStart_mono (show (0 : Int) ≤ ((t.month.toNat : Int) + 9) % 12 by omega)
    omega

theorem InRange.toUnix (h : t.InRange) :
    (t.toUnix : Int) = (t.date.number - 719468) * 86400 + t.hour.toNat * 3600 +
      t.minute.toNat * 60 + t.second.toNat := by
  have hnumber := h.number_le
  have hmonth : (1 : Int) ≤ t.month.toNat := by exact_mod_cast h.month_pos
  rw [RtcTime.toUnix, daysFromCivil_eq _ _ hmonth]
  change 719468 ≤ Date.number ⟨t.year.toNat, t.month.toNat, t.day.toNat⟩ at hnumber
  change _ = (Date.number ⟨t.year.toNat, t.month.toNat, t.day.toNat⟩ - 719468) * 86400 + _ + _ + _
  rw [if_neg (by omega), Int.toNat_of_nonneg (by omega)]

theorem InRange.fromUnix (h : t.InRange) :
    (DateTime.fromUnix t.toUnix).Shows t ↔ Date.ofNumber t.date.number = t.date := by
  have hnumber := h.number_le
  have hunix := h.toUnix
  obtain ⟨-, -, -, -, hhour, hminute, hsecond⟩ := h
  have hdays : ((t.toUnix / 86400 : Nat) : Int) = t.date.number - 719468 := by omega
  have hrem : t.toUnix % 86400 = t.hour.toNat * 3600 + t.minute.toNat * 60 + t.second.toNat := by
    omega
  have hcivil := civilFromDays_eq (t.toUnix / 86400 : Nat)
  rw [hdays, Int.sub_add_cancel] at hcivil
  rw [← hcivil, DateTime.Shows, DateTime.fromUnix, hdays, hrem]
  dsimp only
  rw [UInt32.toNat_ofNat', UInt32.toNat_ofNat', UInt32.toNat_ofNat', civilDate, date,
    Date.mk.injEq]
  constructor
  · intro ⟨hyear, hmonth, hday, _⟩
    exact ⟨hyear, by exact_mod_cast hmonth, by exact_mod_cast hday⟩
  · intro ⟨hyear, hmonth, hday⟩
    refine ⟨hyear, by exact_mod_cast hmonth, by exact_mod_cast hday, ?_⟩
    clear hyear hmonth hday hdays hcivil hrem
    omega

theorem InRange.ofNumber_iff (h : t.InRange) :
    Date.ofNumber t.date.number = t.date ↔
      t.date.day ≤ monthLength t.date.year t.date.month := by
  constructor
  · intro heq
    have hvalid := (Date.ofNumber_spec t.date.number).1
    rw [heq] at hvalid
    exact hvalid.day_le
  · intro hday
    exact Date.ofNumber_number ⟨Int.ofNat_le.mpr h.month_pos, Int.ofNat_le.mpr h.month_le,
      Int.ofNat_le.mpr h.day_pos, hday⟩

end RtcTime

/-- Days and dates are each other's inverse, and days go in the order of the calendar. A time of
the clock comes back whole when its month has its day. -/
theorem calendar_bijection :
    (∀ z, (civilDate (civilFromDays z)).Valid ∧
      daysFromCivil (civilDate (civilFromDays z)).year (civilDate (civilFromDays z)).month
        (civilDate (civilFromDays z)).day = z) ∧
    (∀ date : Date, date.Valid →
      civilDate (civilFromDays (daysFromCivil date.year date.month date.day)) = date) ∧
    (∀ a b : Date, a.Valid → b.Valid → a.Before b →
      daysFromCivil a.year a.month a.day < daysFromCivil b.year b.month b.day) ∧
    (∀ t : RtcTime, t.InRange →
      ((DateTime.fromUnix t.toUnix).Shows t ↔
        t.date.day ≤ monthLength t.date.year t.date.month)) ∧
    ∀ t : RtcTime, t.isValid → t.InRange := by
  refine ⟨daysFromCivil_civilFromDays, fun _ => civilFromDays_daysFromCivil, ?_, ?_,
    fun _ => RtcTime.inRange_of_isValid⟩
  · intro a b ha hb hbefore
    have hlt := Date.number_lt_of_before ha hb hbefore
    rw [daysFromCivil_date ha, daysFromCivil_date hb]
    omega
  · intro t h
    rw [h.fromUnix, h.ofNumber_iff]

/-- The clock may show a day that its month does not have. -/
theorem fromUnix_toUnix_february :
    ¬ ∀ t : RtcTime, t.isValid → (DateTime.fromUnix t.toUnix).Shows t := by
  intro h
  have := h ⟨2023, 2, 31, 12, 0, 0⟩ (by decide)
  revert this
  decide

end Vibra.Timer
