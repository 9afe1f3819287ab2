import Mathlib.Tactic.IntervalCases
import Mathlib.Tactic.Linarith

/-! # The proleptic Gregorian calendar

Days counted from the first of March of the year 0: a year that begins in March has its leap
day at the end, so that where a year and a month begin are two closed formulas.
-/

namespace Vibra.Lib.Gregorian

structure Date where
  year : Int
  month : Int
  day : Int
deriving DecidableEq

def Leap (year : Int) : Prop := year % 4 = 0 ∧ (year % 100 ≠ 0 ∨ year % 400 = 0)

instance (year : Int) : Decidable (Leap year) := inferInstanceAs (Decidable (_ ∧ _))

def monthLength (year month : Int) : Int :=
  if month = 2 then if Leap year then 29 else 28
  else if month = 4 ∨ month = 6 ∨ month = 9 ∨ month = 11 then 30
  else 31

namespace Date

structure Valid (date : Date) : Prop where
  month_pos : 1 ≤ date.month
  month_le : date.month ≤ 12
  day_pos : 1 ≤ date.day
  day_le : date.day ≤ monthLength date.year date.month

instance (date : Date) : Decidable date.Valid :=
  decidable_of_iff (1 ≤ date.month ∧ date.month ≤ 12 ∧ 1 ≤ date.day ∧
      date.day ≤ monthLength date.year date.month)
    ⟨fun h => ⟨h.1, h.2.1, h.2.2.1, h.2.2.2⟩, fun h => ⟨h.1, h.2, h.3, h.4⟩⟩

def Before (a b : Date) : Prop :=
  a.year < b.year ∨ a.year = b.year ∧ (a.month < b.month ∨ a.month = b.month ∧ a.day < b.day)

end Date

/-- The day on which the year `year` begins, on the first of March. -/
def yearStart (year : Int) : Int := 365 * year + year / 4 - year / 100 + year / 400

/-- The day of its year on which the month `month` begins, March being 0. -/
def monthStart (month : Int) : Int := (153 * month + 2) / 5

theorem yearStart_succ (year : Int) :
    yearStart (year + 1) = yearStart year + if Leap (year + 1) then 366 else 365 := by
  by_cases hleap : Leap (year + 1)
  · rw [if_pos hleap]
    unfold yearStart
    unfold Leap at hleap
    omega
  · rw [if_neg hleap]
    unfold yearStart
    unfold Leap at hleap
    omega

theorem yearStart_mono {a b : Int} (h : a ≤ b) : yearStart a ≤ yearStart b := by
  unfold yearStart
  omega

theorem yearStart_add_cycle (year cycle : Int) :
    yearStart (year + cycle * 400) = yearStart year + cycle * 146097 := by
  unfold yearStart
  omega

theorem monthStart_mono {a b : Int} (h : a ≤ b) : monthStart a ≤ monthStart b := by
  unfold monthStart
  omega

theorem monthStart_le {doy : Int} (hpos : 0 ≤ doy) (hle : doy ≤ 365) :
    0 ≤ (5 * doy + 2) / 153 ∧ (5 * doy + 2) / 153 ≤ 11 ∧
      monthStart ((5 * doy + 2) / 153) ≤ doy ∧ doy < monthStart ((5 * doy + 2) / 153 + 1) := by
  unfold monthStart
  omega

theorem cycle_split {doe : Int} (hpos : 0 ≤ doe) (hle : doe ≤ 146096) :
    ∃ c q k r, doe = 36524 * c + 1461 * q + 365 * k + r ∧ 0 ≤ c ∧ c ≤ 3 ∧ 0 ≤ q ∧ q ≤ 24 ∧
      0 ≤ k ∧ k ≤ 3 ∧ 0 ≤ r ∧ (r ≤ 364 ∨ r = 365 ∧ k = 3 ∧ (q < 24 ∨ c = 3)) := by
  have hcentury : ∃ c rest, doe = 36524 * c + rest ∧ 0 ≤ c ∧ c ≤ 3 ∧ 0 ≤ rest ∧
      (rest < 36524 ∨ rest = 36524 ∧ c = 3) :=
    ⟨min 3 (doe / 36524), doe - 36524 * min 3 (doe / 36524), by omega⟩
  obtain ⟨c, rest, rfl, hc, hc3, hrest, hend⟩ := hcentury
  have hyear : ∃ k r, rest % 1461 = 365 * k + r ∧ 0 ≤ k ∧ k ≤ 3 ∧ 0 ≤ r ∧
      (r ≤ 364 ∨ r = 365 ∧ k = 3) :=
    ⟨min 3 (rest % 1461 / 365), rest % 1461 - 365 * min 3 (rest % 1461 / 365), by omega⟩
  obtain ⟨k, r, hk, hyear⟩ := hyear
  exact ⟨c, rest / 1461, k, r, by omega⟩

def yearOfCycle (doe : Int) : Int :=
  (doe - doe / 1460 + doe / 36524 - doe / 146096) / 365

theorem yearOfCycle_eq {c q k r : Int} (hc : 0 ≤ c) (hc3 : c ≤ 3) (hq : 0 ≤ q) (hq24 : q ≤ 24)
    (hk : 0 ≤ k) (hk3 : k ≤ 3) (hr : 0 ≤ r)
    (hend : r ≤ 364 ∨ r = 365 ∧ k = 3 ∧ (q < 24 ∨ c = 3)) :
    yearOfCycle (36524 * c + 1461 * q + 365 * k + r) = 100 * c + 4 * q + k := by
  unfold yearOfCycle
  by_cases hlast : q = 24 ∧ k = 3 ∧ r = 365
  · obtain ⟨rfl, rfl, rfl⟩ := hlast
    obtain rfl : c = 3 := by omega
    rfl
  · have hrest : 1461 * q + 365 * k + r < 36524 := by omega
    have hlong : r ≤ 364 ∨ k = 3 ∧ r = 365 := by omega
    clear hend hlast hq24
    generalize hn : 36524 * c + 1461 * q + 365 * k + r = n
    have hcentury : n / 36524 = c := by omega
    have hcycle : n / 146096 = 0 := by omega
    rw [hcentury, hcycle]
    omega

theorem yearOfCycle_spec {doe : Int} (hpos : 0 ≤ doe) (hle : doe ≤ 146096) :
    0 ≤ yearOfCycle doe ∧ yearOfCycle doe ≤ 399 ∧ yearStart (yearOfCycle doe) ≤ doe ∧
      doe < yearStart (yearOfCycle doe + 1) := by
  obtain ⟨c, q, k, r, rfl, hc, hc3, hq, hq24, hk, hk3, hr, hend⟩ := cycle_split hpos hle
  rw [yearOfCycle_eq hc hc3 hq hq24 hk hk3 hr hend]
  have hyear : yearStart (100 * c + 4 * q + k) = 36524 * c + 1461 * q + 365 * k := by
    unfold yearStart
    have hfour : (100 * c + 4 * q + k) / 4 = 25 * c + q := by omega
    have hcentury : (100 * c + 4 * q + k) / 100 = c := by omega
    have hcycle : (100 * c + 4 * q + k) / 400 = 0 := by omega
    omega
  refine ⟨by omega, by omega, by omega, ?_⟩
  rw [yearStart_succ, hyear]
  by_cases hleap : Leap (100 * c + 4 * q + k + 1)
  · rw [if_pos hleap]
    omega
  · rw [if_neg hleap]
    unfold Leap at hleap
    omega

namespace Date

def marchYear (date : Date) : Int := if date.month ≤ 2 then date.year - 1 else date.year

def marchMonth (date : Date) : Int := (date.month + 9) % 12

def dayOfYear (date : Date) : Int := monthStart date.marchMonth + date.day - 1

def number (date : Date) : Int := yearStart date.marchYear + date.dayOfYear

variable {a b date : Date}

theorem Valid.dayOfYear (h : date.Valid) :
    0 ≤ date.marchMonth ∧ date.marchMonth ≤ 11 ∧ monthStart date.marchMonth ≤ date.dayOfYear ∧
      date.dayOfYear < monthStart (date.marchMonth + 1) := by
  have hday := h.day_le
  have hlow := h.month_pos
  have hhigh := h.month_le
  have hpos := h.day_pos
  rw [Date.dayOfYear]
  unfold marchMonth monthStart
  unfold monthLength at hday
  generalize date.month = month at *
  interval_cases month <;> split_ifs at hday <;> omega

theorem Valid.dayOfYear_lt (h : date.Valid) :
    0 ≤ date.dayOfYear ∧ yearStart date.marchYear + date.dayOfYear <
      yearStart (date.marchYear + 1) := by
  obtain ⟨hmonth, hmonth', hle, hlt⟩ := h.dayOfYear
  have hstart : monthStart 0 ≤ monthStart date.marchMonth := monthStart_mono hmonth
  have hzero : monthStart 0 = 0 := rfl
  refine ⟨by omega, ?_⟩
  rw [yearStart_succ]
  have hday := h.day_le
  by_cases hfeb : date.month = 2
  · have hyear : date.marchYear + 1 = date.year := by
      rw [marchYear, if_pos hfeb.le]
      omega
    rw [hyear]
    rw [hfeb, monthLength, if_pos rfl] at hday
    have heleven : date.dayOfYear = 337 + date.day - 1 := by
      rw [Date.dayOfYear, marchMonth, hfeb]
      rfl
    rw [heleven]
    split_ifs at hday ⊢ <;> omega
  · -- only February ends at the end of the year
    have hten : date.marchMonth + 1 ≤ 11 := by
      have := h.month_pos
      have := h.month_le
      unfold marchMonth
      omega
    have hend : monthStart (date.marchMonth + 1) ≤ monthStart 11 := monthStart_mono hten
    have heleven : monthStart 11 = 337 := rfl
    split <;> omega

theorem number_lt_of_before (ha : a.Valid) (hb : b.Valid) (h : a.Before b) :
    a.number < b.number := by
  have hayear := ha.dayOfYear_lt
  have hbyear := hb.dayOfYear_lt
  rw [number, number]
  by_cases hyear : a.marchYear < b.marchYear
  · have := yearStart_mono (show a.marchYear + 1 ≤ b.marchYear by omega)
    omega
  · have hamonth := ha.dayOfYear
    have hbmonth := hb.dayOfYear
    have hsame : a.marchYear = b.marchYear ∧
        (a.marchMonth < b.marchMonth ∨ a.marchMonth = b.marchMonth ∧ a.day < b.day) := by
      obtain ⟨ham, ham', -, -⟩ := ha
      obtain ⟨hbm, hbm', -, -⟩ := hb
      unfold marchYear marchMonth at *
      rcases h with h | ⟨h, h | ⟨h, h'⟩⟩ <;> split_ifs at hyear ⊢ <;> omega
    obtain ⟨hsame, hmonth | ⟨hmonth, hday⟩⟩ := hsame
    all_goals rw [hsame]
    · have := monthStart_mono (show a.marchMonth + 1 ≤ b.marchMonth by omega)
      omega
    · rw [dayOfYear, dayOfYear, hmonth]
      omega

theorem before_trichotomy (a b : Date) : a.Before b ∨ a = b ∨ b.Before a := by
  rcases lt_trichotomy a.year b.year with hyear | hyear | hyear
  · exact .inl (.inl hyear)
  · rcases lt_trichotomy a.month b.month with hmonth | hmonth | hmonth
    · exact .inl (.inr ⟨hyear, .inl hmonth⟩)
    · rcases lt_trichotomy a.day b.day with hday | hday | hday
      · exact .inl (.inr ⟨hyear, .inr ⟨hmonth, hday⟩⟩)
      · cases a
        cases b
        simp_all
      · exact .inr (.inr (.inr ⟨hyear.symm, .inr ⟨hmonth.symm, hday⟩⟩))
    · exact .inr (.inr (.inr ⟨hyear.symm, .inl hmonth⟩))
  · exact .inr (.inr (.inl hyear))

theorem number_injective (ha : a.Valid) (hb : b.Valid) (h : a.number = b.number) : a = b := by
  rcases before_trichotomy a b with hlt | heq | hlt
  · have := number_lt_of_before ha hb hlt
    omega
  · exact heq
  · have := number_lt_of_before hb ha hlt
    omega

def ofMarch (year doy : Int) : Date :=
  let mp := (5 * doy + 2) / 153
  let month := if mp < 10 then mp + 3 else mp - 9
  ⟨if month ≤ 2 then year + 1 else year, month, doy - monthStart mp + 1⟩

def ofNumber (n : Int) : Date :=
  let yoe := yearOfCycle (n % 146097)
  ofMarch (yoe + n / 146097 * 400) (n % 146097 - yearStart yoe)

theorem ofMarch_spec {year doy : Int} (hpos : 0 ≤ doy)
    (hlt : yearStart year + doy < yearStart (year + 1)) :
    (ofMarch year doy).Valid ∧ (ofMarch year doy).number = yearStart year + doy := by
  have hle : doy ≤ 365 ∧ (doy = 365 → Leap (year + 1)) := by
    rw [yearStart_succ] at hlt
    split at hlt
    · exact ⟨by omega, fun _ => by assumption⟩
    · exact ⟨by omega, fun _ => by omega⟩
  obtain ⟨hmonth, hmonth', hstart, hend⟩ := monthStart_le hpos hle.1
  rw [ofMarch]
  generalize (5 * doy + 2) / 153 = mp at *
  have hnumber : (mp < 10 → (mp + 3 + 9) % 12 = mp) ∧ (¬ mp < 10 → (mp - 9 + 9) % 12 = mp) := by
    omega
  by_cases hten : mp < 10
  · rw [if_pos hten, if_neg (by omega)]
    constructor
    · refine ⟨by dsimp only; omega, by dsimp only; omega, by dsimp only; omega, ?_⟩
      dsimp only
      unfold monthStart at *
      unfold monthLength
      split_ifs <;> omega
    · rw [number, marchYear, dayOfYear, marchMonth, if_neg (by dsimp only; omega)]
      dsimp only
      rw [hnumber.1 hten]
      omega
  · rw [if_neg hten, if_pos (by omega)]
    constructor
    · refine ⟨by dsimp only; omega, by dsimp only; omega, by dsimp only; omega, ?_⟩
      dsimp only
      unfold monthStart at *
      unfold monthLength
      by_cases hleap : Leap (year + 1)
      · rw [if_pos hleap]
        split_ifs <;> omega
      · have hshort : doy ≠ 365 := fun heq => hleap (hle.2 heq)
        rw [if_neg hleap]
        split_ifs <;> omega
    · rw [number, marchYear, dayOfYear, marchMonth, if_pos (by dsimp only; omega)]
      dsimp only
      rw [hnumber.2 hten, Int.add_sub_cancel]
      omega

theorem ofNumber_spec (n : Int) : (ofNumber n).Valid ∧ (ofNumber n).number = n := by
  obtain ⟨hyear, hyear', hle, hlt⟩ :=
    yearOfCycle_spec (show 0 ≤ n % 146097 by omega) (by omega)
  have hcycle := yearStart_add_cycle (yearOfCycle (n % 146097)) (n / 146097)
  have hnext := yearStart_add_cycle (yearOfCycle (n % 146097) + 1) (n / 146097)
  rw [Int.add_right_comm] at hnext
  have hpos : 0 ≤ n % 146097 - yearStart (yearOfCycle (n % 146097)) := by omega
  obtain ⟨hvalid, hnumber⟩ := ofMarch_spec hpos
    (show yearStart (yearOfCycle (n % 146097) + n / 146097 * 400) + _ < yearStart _ by omega)
  refine ⟨hvalid, ?_⟩
  rw [ofNumber]
  omega

theorem ofNumber_number (h : date.Valid) : ofNumber date.number = date :=
  number_injective (ofNumber_spec _).1 h (ofNumber_spec _).2

end Date

end Vibra.Lib.Gregorian
