import Mathlib.Order.Monotone.Basic
import Mathlib.Order.Nat
import Mathlib.Data.Nat.Notation

/-!
# The Gregorian calendar

Days of the proleptic Gregorian calendar from the year 1 on, and their numbers.  A year and a month
are found from the number of a day as the only ones whose first day is not after it while the first
day of the next one is.
-/

namespace Brutal.Lib

/-- The leap years: one in four, without the centuries that are not one in four. -/
def IsLeap (year : ℕ) : Prop := 4 ∣ year ∧ (100 ∣ year → 400 ∣ year)

instance : DecidablePred IsLeap := fun year ↦
  inferInstanceAs (Decidable (4 ∣ year ∧ (100 ∣ year → 400 ∣ year)))

def yearLength (year : ℕ) : ℕ := if IsLeap year then 366 else 365

/-- The number of days of a month; months count from one. -/
def monthLength (year month : ℕ) : ℕ :=
  if month = 2 then if IsLeap year then 29 else 28
  else if month = 4 ∨ month = 6 ∨ month = 9 ∨ month = 11 then 30 else 31

/-- The number of days from the year 1 until the first day of the year. -/
def daysBeforeYear (year : ℕ) : ℕ :=
  365 * (year - 1) + (year - 1) / 4 - (year - 1) / 100 + (year - 1) / 400

/-- The number of days of the first months of a year. -/
def daysOfMonths (year : ℕ) : ℕ → ℕ
  | 0 => 0
  | months + 1 => daysOfMonths year months + monthLength year (months + 1)

theorem monthLength_pos (year month : ℕ) : 0 < monthLength year month := by
  rw [monthLength]
  split
  · split <;> omega
  · split <;> omega

theorem monthLength_le (year month : ℕ) : monthLength year month ≤ 31 := by
  rw [monthLength]
  split
  · split <;> omega
  · split <;> omega

theorem yearLength_pos (year : ℕ) : 0 < yearLength year := by
  rw [yearLength]
  split <;> omega

theorem yearLength_le (year : ℕ) : yearLength year ≤ 366 := by
  rw [yearLength]
  split <;> omega

/-- The leap years up to a year and its predecessor. -/
theorem leapYears_succ (year : ℕ) :
    (year + 1) / 4 + year / 100 + (year + 1) / 400 =
      year / 4 + (year + 1) / 100 + year / 400 + if IsLeap (year + 1) then 1 else 0 := by
  have hfour : 100 ∣ year + 1 → 4 ∣ year + 1 := Nat.dvd_trans (by decide)
  have hhundred : 400 ∣ year + 1 → 100 ∣ year + 1 := Nat.dvd_trans (by decide)
  rw [Nat.succ_div, Nat.succ_div, Nat.succ_div]
  generalize year / 4 = fours
  generalize year / 100 = hundreds
  generalize year / 400 = all
  by_cases hleap : IsLeap (year + 1)
  · have hsame : 100 ∣ year + 1 ↔ 400 ∣ year + 1 := ⟨hleap.2, hhundred⟩
    rw [if_pos hleap, if_pos hleap.1, if_congr hsame rfl rfl]
    ac_rfl
  · have hsame : 4 ∣ year + 1 ↔ 100 ∣ year + 1 := by
      refine ⟨fun h4 ↦ ?_, hfour⟩
      by_contra h100
      exact hleap ⟨h4, fun h ↦ absurd h h100⟩
    have hnone : ¬ 400 ∣ year + 1 := fun h ↦ hleap ⟨hfour (hhundred h), fun _ ↦ h⟩
    rw [if_neg hleap, if_neg hnone, if_congr hsame rfl rfl]
    ac_rfl

theorem daysBeforeYear_succ {year : ℕ} (h : 0 < year) :
    daysBeforeYear (year + 1) = daysBeforeYear year + yearLength year := by
  obtain ⟨year, rfl⟩ := Nat.exists_eq_add_one_of_ne_zero (Nat.ne_of_gt h)
  have hleap := leapYears_succ year
  have hle : year / 100 ≤ year / 4 := Nat.div_le_div_left (by decide) (by decide)
  have hle' : (year + 1) / 100 ≤ (year + 1) / 4 := Nat.div_le_div_left (by decide) (by decide)
  rw [daysBeforeYear, daysBeforeYear, yearLength, Nat.add_sub_cancel, Nat.add_sub_cancel]
  generalize year / 4 = fours at *
  generalize (year + 1) / 4 = fours' at *
  generalize year / 100 = hundreds at *
  generalize (year + 1) / 100 = hundreds' at *
  generalize year / 400 = all at *
  generalize (year + 1) / 400 = all' at *
  by_cases hyear : IsLeap (year + 1)
  · rw [if_pos hyear] at hleap ⊢
    omega
  · rw [if_neg hyear] at hleap ⊢
    omega

theorem daysOfMonths_year (year : ℕ) : daysOfMonths year 12 = yearLength year := by
  by_cases h : IsLeap year
  · simp [daysOfMonths, monthLength, yearLength, h]
  · simp [daysOfMonths, monthLength, yearLength, h]

theorem daysBeforeYear_mono : Monotone daysBeforeYear := by
  apply monotone_nat_of_le_succ
  intro year
  cases year with
  | zero => exact Nat.le_refl _
  | succ year =>
    rw [daysBeforeYear_succ (Nat.succ_pos year)]
    exact Nat.le_add_right _ _

theorem daysOfMonths_mono (year : ℕ) : Monotone (daysOfMonths year) := by
  apply monotone_nat_of_le_succ
  intro months
  exact Nat.le_add_right _ _

/-- Of the stretches between the values of a monotone function, a number lies in one only. -/
theorem eq_of_between {f : ℕ → ℕ} (hf : Monotone f) {i j n : ℕ} (hi : f i ≤ n) (hi' : n < f (i + 1))
    (hj : f j ≤ n) (hj' : n < f (j + 1)) : i = j := by
  rcases Nat.lt_trichotomy i j with h | h | h
  · have hle : f (i + 1) ≤ f j := hf h
    omega
  · exact h
  · have hle : f (j + 1) ≤ f i := hf h
    omega

/-- A number below the last value of a function that starts at zero lies in some stretch. -/
theorem exists_between {f : ℕ → ℕ} (hzero : f 0 = 0) {n last : ℕ} (h : n < f last) :
    ∃ i < last, f i ≤ n ∧ n < f (i + 1) := by
  induction last with
  | zero => omega
  | succ last ih =>
    by_cases hlast : n < f last
    · obtain ⟨i, hi, hbetween⟩ := ih hlast
      exact ⟨i, by omega, hbetween⟩
    · exact ⟨last, by omega, by omega, h⟩

/-- A day of the calendar. -/
@[ext]
structure CalendarDay where
  year : ℕ
  month : ℕ
  day : ℕ
  year_pos : 0 < year
  month_pos : 0 < month
  month_le : month ≤ 12
  day_pos : 0 < day
  day_le : day ≤ monthLength year month

namespace CalendarDay

/-- The day of the year, counted from zero. -/
def dayOfYear (date : CalendarDay) : ℕ := daysOfMonths date.year (date.month - 1) + (date.day - 1)

/-- The number of days from the first day of the year 1. -/
def number (date : CalendarDay) : ℕ := daysBeforeYear date.year + date.dayOfYear

/-- The first of January -/
def IsNewYear (date : CalendarDay) : Prop := date.month = 1 ∧ date.day = 1

variable (date : CalendarDay)

theorem daysOfMonths_month : daysOfMonths date.year date.month =
    daysOfMonths date.year (date.month - 1) + monthLength date.year date.month := by
  obtain ⟨months, hmonths⟩ := Nat.exists_eq_succ_of_ne_zero date.month_pos.ne'
  rw [hmonths]
  rfl

theorem dayOfYear_lt_month : date.dayOfYear < daysOfMonths date.year date.month := by
  have hday := date.day_le
  have hpos := date.day_pos
  rw [dayOfYear, daysOfMonths_month]
  omega

theorem dayOfYear_lt : date.dayOfYear < yearLength date.year := by
  have hmonths := daysOfMonths_mono date.year date.month_le
  rw [daysOfMonths_year] at hmonths
  exact Nat.lt_of_lt_of_le date.dayOfYear_lt_month hmonths

theorem number_lt : date.number < daysBeforeYear (date.year + 1) := by
  rw [daysBeforeYear_succ date.year_pos]
  exact Nat.add_lt_add_left date.dayOfYear_lt _

theorem isNewYear_iff : date.IsNewYear ↔ date.dayOfYear = 0 := by
  have hday := date.day_pos
  constructor
  · rintro ⟨hmonth, hone⟩
    rw [dayOfYear, hmonth, hone]
    rfl
  · intro h
    rw [dayOfYear] at h
    refine ⟨?_, by omega⟩
    by_contra hmonth
    have hmonth' : 1 ≤ date.month - 1 := by
      have := date.month_pos
      omega
    have hjanuary : daysOfMonths date.year 1 = monthLength date.year 1 := Nat.zero_add _
    have hmonths := daysOfMonths_mono date.year hmonth'
    have hpos := monthLength_pos date.year 1
    omega

variable {date}

/-- A year whose first day is not after the date and whose last one is not before it. -/
theorem year_eq {year : ℕ} (h : daysBeforeYear year ≤ date.number)
    (h' : date.number < daysBeforeYear (year + 1)) : date.year = year :=
  eq_of_between daysBeforeYear_mono (Nat.le_add_right _ _) date.number_lt h h'

theorem number_injective : Function.Injective number := by
  intro date other h
  have hyear : date.year = other.year := by
    refine year_eq ?_ ?_
    · rw [h]
      exact Nat.le_add_right _ _
    · rw [h]
      exact other.number_lt
  have hdays : date.dayOfYear = other.dayOfYear := by
    rw [number, number, hyear] at h
    exact Nat.add_left_cancel h
  have hmonths : date.month - 1 = other.month - 1 := by
    have hlt := date.dayOfYear_lt_month
    have hlt' := other.dayOfYear_lt_month
    refine eq_of_between (n := date.dayOfYear) (daysOfMonths_mono date.year) ?_ ?_ ?_ ?_
    · exact Nat.le_add_right _ _
    · rwa [Nat.sub_add_cancel date.month_pos]
    · rw [hdays, hyear]
      exact Nat.le_add_right _ _
    · rwa [Nat.sub_add_cancel other.month_pos, hdays, hyear]
  have hmonth := date.month_pos
  have hmonth' := other.month_pos
  have hday := date.day_pos
  have hday' := other.day_pos
  rw [dayOfYear, dayOfYear, hyear, hmonths] at hdays
  ext
  · exact hyear
  · omega
  · omega

/-- Every day of a year is one of the calendar. -/
theorem exists_dayOfYear {year days : ℕ} (hyear : 0 < year) (hdays : days < yearLength year) :
    ∃ date : CalendarDay, date.year = year ∧ date.dayOfYear = days := by
  rw [← daysOfMonths_year] at hdays
  obtain ⟨months, hmonths, hle, hlt⟩ := exists_between (f := daysOfMonths year) rfl hdays
  rw [daysOfMonths] at hlt
  refine ⟨⟨year, months + 1, days - daysOfMonths year months + 1, hyear, Nat.succ_pos _, hmonths,
    Nat.succ_pos _, by omega⟩, rfl, ?_⟩
  show daysOfMonths year months + (days - daysOfMonths year months) = days
  exact Nat.add_sub_of_le hle

end CalendarDay

/-- A time of a day. -/
@[ext]
structure ClockTime where
  hour : ℕ
  minute : ℕ
  second : ℕ
  hour_lt : hour < 24
  minute_lt : minute < 60
  second_lt : second < 60

namespace ClockTime

/-- The number of seconds from the start of the day. -/
def seconds (clock : ClockTime) : ℕ := clock.hour * 3600 + clock.minute * 60 + clock.second

theorem seconds_lt (clock : ClockTime) : clock.seconds < 86400 := by
  have hhour := clock.hour_lt
  have hminute := clock.minute_lt
  have hsecond := clock.second_lt
  rw [seconds]
  omega

end ClockTime

end Brutal.Lib
