import Brutal.Base.Debug
import Brutal.Lib.Gregorian
import Brutal.Lib.Loop
import Mathlib.Tactic.Common

/-!
# Timestamps and dates

`libs/brutal-time`: seconds since the first of January 1970 are converted to a date and a time of
the Gregorian calendar, and back.
-/

namespace Brutal.Calendar

open Base Lib

/-- `EPOCH_YEAR` -/
def epochYear : UInt64 := 1970

/-- `SECONDS_PER_MINUTE` -/
def secondsPerMinute : UInt64 := 60

/-- `SECONDS_PER_HOURS` -/
def secondsPerHours : UInt64 := secondsPerMinute * 60

/-- `SECONDS_PER_DAY` -/
def secondsPerDay : UInt64 := secondsPerHours * 24

/-- `is_leap_year` -/
def isLeapYear (year : UInt64) : Bool := (year % 4 == 0 && year % 100 != 0) || year % 400 == 0

/-- `DAYS_PER_MONTH` -/
def daysPerMonth (leap : Bool) : List ℤ :=
  if leap then [31, 29, 31, 30, 31, 30, 31, 31, 30, 31, 30, 31]
  else [31, 28, 31, 30, 31, 30, 31, 31, 30, 31, 30, 31]

/-- `DAYS_PER_YEAR` -/
def daysPerYear (leap : Bool) : ℤ := if leap then 366 else 365

structure Time where
  second : UInt64
  minute : UInt64
  hour : UInt64
deriving DecidableEq, Repr

structure Date where
  day : UInt64
  month : UInt64
  year : UInt64
deriving DecidableEq, Repr

structure DateTime where
  date : Date
  time : Time
deriving DecidableEq, Repr

/-- A conversion to `int`. -/
def toInt (value : UInt64) : ℤ := Int.bmod value.toNat (2 ^ 32)

/-- A difference of type `int`. -/
def intSub (lhs rhs : ℤ) : Except Fault ℤ :=
  if -2 ^ 31 ≤ lhs - rhs ∧ lhs - rhs < 2 ^ 31 then .ok (lhs - rhs) else .error .overflow

/-- An entry of `DAYS_PER_MONTH`. -/
def daysPerMonthAt (leap : Bool) (month : UInt64) : Except Fault ℤ :=
  match (daysPerMonth leap)[month.toNat]? with
  | some days => .ok days
  | none => .error .outOfBounds

/-- One turn of the loop over the years in `timestamp_to_date`. -/
def yearTurn : ℤ × UInt64 → Except Fault ((ℤ × UInt64) ⊕ (ℤ × UInt64))
  | (days, year) => do
    let rest ← intSub days (daysPerYear (isLeapYear year))
    if rest > 0 then pure (.inl (rest, year + 1)) else pure (.inr (days, year))

/-- One turn of the loop over the months in `timestamp_to_date`. -/
def monthTurn (year : UInt64) : ℤ × UInt64 → Except Fault ((ℤ × UInt64) ⊕ (ℤ × UInt64))
  | (days, month) => do
    let length ← daysPerMonthAt (isLeapYear year) month
    let rest ← intSub days length
    if rest ≥ 0 then pure (.inl (rest, month + 1)) else pure (.inr (days, month))

/-- `timestamp_to_date`.  A turn of the first loop takes a day at least, and one of the second loop
an entry of the table. -/
def timestampToDate (timestamp : UInt64) : Except Fault Date := do
  let days := toInt (timestamp / secondsPerDay)
  let (days, year) ← loop yearTurn .depth (days.toNat + 1) (days, epochYear)
  let (days, month) ← loop (monthTurn year) .depth 13 (days, 0)
  pure ⟨UInt64.ofInt (days + 1), month + 1, year⟩

/-- `timestamp_to_time` -/
def timestampToTime (timestamp : UInt64) : Time where
  second := timestamp % 60
  minute := timestamp / secondsPerMinute % 60
  hour := timestamp / secondsPerHours % 24

/-- `timestamp_to_datetime` -/
def timestampToDatetime (timestamp : UInt64) : Except Fault DateTime := do
  let date ← timestampToDate timestamp
  pure ⟨date, timestampToTime timestamp⟩

/-- `datetime_to_timestamp` -/
def datetimeToTimestamp (datetime : DateTime) : Except Fault UInt64 := do
  let ⟨⟨day, month, year⟩, ⟨second, minute, hour⟩⟩ := datetime
  let timestamp :=
    (List.range' epochYear.toNat (year.toNat - epochYear.toNat)).foldl (fun timestamp year ↦
      timestamp + UInt64.ofInt (daysPerYear (isLeapYear (.ofNat year))) * secondsPerDay) 0
  let timestamp ← (List.range (month - 1).toNat).foldlM (fun timestamp month ↦ do
    let length ← daysPerMonthAt (isLeapYear year) (.ofNat month)
    pure (timestamp + UInt64.ofInt length * secondsPerDay)) timestamp
  pure (timestamp + (day - 1) * secondsPerDay + hour * secondsPerHours +
    minute * secondsPerMinute + second)

/-- The first of January 1970 -/
def epoch : CalendarDay := ⟨1970, 1, 1, by decide, by decide, by decide, by decide, by decide⟩

/-- The fields are those of a day of the calendar and a time of it. -/
structure DateTime.Shows (datetime : DateTime) (date : CalendarDay) (clock : ClockTime) :
    Prop where
  year : datetime.date.year.toNat = date.year
  month : datetime.date.month.toNat = date.month
  day : datetime.date.day.toNat = date.day
  hour : datetime.time.hour.toNat = clock.hour
  minute : datetime.time.minute.toNat = clock.minute
  second : datetime.time.second.toNat = clock.second

/-- The timestamp becomes the date and the time that many seconds after the epoch, and they become
the timestamp again. -/
def Converts (timestamp : UInt64) : Prop :=
  ∃ datetime date clock, timestampToDatetime timestamp = .ok datetime ∧
    datetime.Shows date clock ∧ date.number = epoch.number + timestamp.toNat / 86400 ∧
      clock.seconds = timestamp.toNat % 86400 ∧ datetimeToTimestamp datetime = .ok timestamp

/-- The date and the time become a timestamp that becomes them again. -/
def ReadsBack (datetime : DateTime) : Prop :=
  ∃ timestamp, datetimeToTimestamp datetime = .ok timestamp ∧
    timestampToDatetime timestamp = .ok datetime

/-- The day is the first of January of a later year than that of the epoch. -/
def LaterNewYear (date : CalendarDay) : Prop := date.IsNewYear ∧ 1970 < date.year

section Tables

theorem isLeapYear_iff (year : UInt64) : isLeapYear year = true ↔ IsLeap year.toNat := by
  have hmod : ∀ n : ℕ, 0 < n → n < 2 ^ 64 → (year % .ofNat n = 0 ↔ n ∣ year.toNat) := by
    intro n hpos hlt
    rw [← UInt64.toNat_inj, UInt64.toNat_mod, UInt64.toNat_ofNat_of_lt' hlt]
    exact Nat.dvd_iff_mod_eq_zero.symm
  have h4 : year % 4 = 0 ↔ 4 ∣ year.toNat := hmod 4 (by decide) (by decide)
  have h100 : year % 100 = 0 ↔ 100 ∣ year.toNat := hmod 100 (by decide) (by decide)
  have h400 : year % 400 = 0 ↔ 400 ∣ year.toNat := hmod 400 (by decide) (by decide)
  rw [isLeapYear]
  simp only [Bool.or_eq_true, Bool.and_eq_true, beq_iff_eq, bne_iff_ne, ne_eq, h4, h100, h400]
  unfold IsLeap
  omega

theorem daysPerYear_eq (year : UInt64) :
    daysPerYear (isLeapYear year) = yearLength year.toNat := by
  rw [daysPerYear, yearLength, if_congr (isLeapYear_iff year) rfl rfl]
  split <;> rfl

theorem getElem?_daysPerMonth {year : UInt64} {month : ℕ} (h : month < 12) :
    (daysPerMonth (isLeapYear year))[month]? = some (monthLength year.toNat (month + 1) : ℤ) := by
  rw [daysPerMonth, monthLength]
  rw [if_congr (isLeapYear_iff year) rfl rfl]
  by_cases hleap : IsLeap year.toNat
  · rw [if_pos hleap, if_pos hleap]
    revert month
    decide
  · rw [if_neg hleap, if_neg hleap]
    revert month
    decide

theorem daysPerMonthAt_eq {year : UInt64} {month : ℕ} (h : month < 12) :
    daysPerMonthAt (isLeapYear year) (.ofNat month) =
      .ok (monthLength year.toNat (month + 1) : ℤ) := by
  rw [daysPerMonthAt, UInt64.toNat_ofNat_of_lt' (Nat.lt_trans h (by decide)),
    getElem?_daysPerMonth h]

theorem daysPerMonthAt_twelve (leap : Bool) :
    daysPerMonthAt leap (.ofNat 12) = .error .outOfBounds := by
  cases leap <;> rfl

end Tables

section Loops

variable {days turns : ℕ} {year : UInt64}

theorem intSub_eq {length : ℕ} (hdays : days < 2 ^ 31) (hlength : length < 2 ^ 31) :
    intSub days length = .ok (days - length) :=
  if_pos (by omega)

theorem yearTurn_eq (hdays : days < 2 ^ 31) :
    yearTurn (days, year) =
      if yearLength year.toNat < days then
        .ok (.inl (((days - yearLength year.toNat : ℕ) : ℤ), year + 1))
      else .ok (.inr ((days : ℤ), year)) := by
  have hlength : yearLength year.toNat < 2 ^ 31 :=
    Nat.lt_of_le_of_lt (yearLength_le year.toNat) (by decide)
  rw [yearTurn, daysPerYear_eq, intSub_eq hdays hlength, ok_bind]
  by_cases h : yearLength year.toNat < days
  · rw [if_pos h, if_pos (by omega), Int.ofNat_sub h.le]
    rfl
  · rw [if_neg h, if_neg (by omega)]
    rfl

/-- The loop over the years ends with days that are no more than the year has.  They may be all of
its days: then the day is the first one of the year after it. -/
theorem exists_yearLoop (hyear : 0 < year.toNat) (hroom : year.toNat + days < 2 ^ 64)
    (hdays : days < 2 ^ 31) (hturns : days < turns) :
    ∃ (rest : ℕ) (last : UInt64), loop yearTurn .depth turns (days, year) = .ok (rest, last) ∧
      daysBeforeYear last.toNat + rest = daysBeforeYear year.toNat + days ∧
        rest ≤ yearLength last.toNat ∧ (last = year ∨ 0 < rest) ∧ rest ≤ days ∧
          year.toNat ≤ last.toNat := by
  induction turns generalizing days year with
  | zero => omega
  | succ turns ih =>
    have hturn := @yearTurn_eq _ year hdays
    by_cases h : yearLength year.toNat < days
    · have hpos := yearLength_pos year.toNat
      have hnext : (year + 1).toNat = year.toNat + 1 := by
        rw [UInt64.toNat_add]
        exact Nat.mod_eq_of_lt (by simp; omega)
      rw [if_pos h] at hturn
      obtain ⟨rest, last, hloop, hsum, hle, hlast, hless, hafter⟩ :=
        @ih (days - yearLength year.toNat) (year + 1) (by omega) (by omega) (by omega) (by omega)
      rw [hnext] at hsum hafter
      rw [daysBeforeYear_succ hyear] at hsum
      rw [loop_turn hturn]
      refine ⟨rest, last, hloop, by omega, hle, Or.inr ?_, by omega, by omega⟩
      rcases hlast with rfl | hlast
      · rw [hnext, daysBeforeYear_succ hyear] at hsum
        omega
      · exact hlast
    · rw [if_neg h] at hturn
      exact ⟨days, year, loop_leave hturn turns, rfl, Nat.le_of_not_lt h, Or.inl rfl,
        Nat.le_refl _, Nat.le_refl _⟩

theorem monthTurn_eq {month : ℕ} (hmonth : month < 12) (hdays : days < 2 ^ 31) :
    monthTurn year (days, .ofNat month) =
      if monthLength year.toNat (month + 1) ≤ days then
        .ok (.inl (((days - monthLength year.toNat (month + 1) : ℕ) : ℤ), .ofNat (month + 1)))
      else .ok (.inr ((days : ℤ), .ofNat month)) := by
  have hlength : monthLength year.toNat (month + 1) < 2 ^ 31 :=
    Nat.lt_of_le_of_lt (monthLength_le year.toNat _) (by decide)
  rw [monthTurn, daysPerMonthAt_eq hmonth, ok_bind, intSub_eq hdays hlength, ok_bind]
  by_cases h : monthLength year.toNat (month + 1) ≤ days
  · rw [if_pos h, if_pos (by omega), Int.ofNat_sub h, UInt64.ofNat_add]
    rfl
  · rw [if_neg h, if_neg (by omega)]
    rfl

theorem monthTurn_twelve : monthTurn year (days, .ofNat 12) = .error .outOfBounds := by
  rw [monthTurn, daysPerMonthAt_twelve]
  rfl

/-- With all the days of the year, the loop over the months goes past the table. -/
theorem monthLoop_error {month : ℕ} (hmonth : month ≤ 12) (hdays : days < 2 ^ 31)
    (hsum : daysOfMonths year.toNat month + days = yearLength year.toNat)
    (hturns : 12 < turns + month) :
    loop (monthTurn year) .depth turns (days, .ofNat month) = .error .outOfBounds := by
  induction turns generalizing days month with
  | zero => omega
  | succ turns ih =>
    by_cases h : month = 12
    · subst h
      exact loop_stop monthTurn_twelve turns
    · have hlt : month < 12 := by omega
      have hmono := daysOfMonths_mono year.toNat (Nat.succ_le_of_lt hlt)
      have hturn := @monthTurn_eq _ year _ hlt hdays
      rw [daysOfMonths_year, daysOfMonths] at hmono
      rw [if_pos (by omega)] at hturn
      rw [loop_turn hturn]
      apply ih hlt (by omega) _ (by omega)
      rw [daysOfMonths]
      omega

/-- With fewer days, it ends with the month and the day of the date. -/
theorem monthLoop_eq {month : ℕ} {date : CalendarDay} (hyear : date.year = year.toNat)
    (hmonth : month < date.month) (hdays : days < 2 ^ 31)
    (hsum : daysOfMonths year.toNat month + days = date.dayOfYear) (hturns : 12 ≤ turns + month) :
    loop (monthTurn year) .depth turns (days, .ofNat month) =
      .ok (((date.day - 1 : ℕ) : ℤ), .ofNat (date.month - 1)) := by
  have hle := date.month_le
  have hpos := date.day_pos
  have hday := date.day_le
  induction turns generalizing days month with
  | zero => omega
  | succ turns ih =>
    have hturn := @monthTurn_eq _ year _ (show month < 12 by omega) hdays
    rw [CalendarDay.dayOfYear, hyear] at hsum
    rw [hyear] at hday
    by_cases h : month + 1 = date.month
    · have hmonths : date.month - 1 = month := by omega
      rw [hmonths] at hsum
      rw [h, if_neg (by omega)] at hturn
      rw [loop_leave hturn, hmonths]
      congr 3
      omega
    · have hmono := daysOfMonths_mono year.toNat (show month + 1 ≤ date.month - 1 by omega)
      rw [daysOfMonths] at hmono
      rw [if_pos (by omega)] at hturn
      rw [loop_turn hturn]
      apply ih (by omega) (by omega) _ (by omega)
      rw [CalendarDay.dayOfYear, hyear, daysOfMonths]
      omega

end Loops

/-! ## From a timestamp -/

section FromTimestamp

variable {timestamp : UInt64}

theorem toInt_bounds (value : UInt64) : -2 ^ 31 ≤ toInt value ∧ toInt value < 2 ^ 31 := by
  have hle : -(((2 ^ 32 : ℕ) : ℤ) / 2) ≤ toInt value := Int.le_bmod (by decide)
  have hlt : toInt value < (((2 ^ 32 : ℕ) : ℤ) + 1) / 2 := Int.bmod_lt (by decide)
  have hlow : -(((2 ^ 32 : ℕ) : ℤ) / 2) = -2 ^ 31 := by decide
  have hhigh : (((2 ^ 32 : ℕ) : ℤ) + 1) / 2 = 2 ^ 31 := by decide
  rw [hlow] at hle
  rw [hhigh] at hlt
  exact ⟨hle, hlt⟩

theorem toNat_days (timestamp : UInt64) :
    (timestamp / secondsPerDay).toNat = timestamp.toNat / 86400 := by
  rw [UInt64.toNat_div]
  rfl

theorem toInt_eq {value : UInt64} (h : value.toNat < 2 ^ 31) : toInt value = value.toNat := by
  have hle : (-2 ^ 31 : ℤ) ≤ value.toNat := by omega
  have hlt : (value.toNat : ℤ) < 2 ^ 31 := by omega
  have hlow : -(((2 ^ 32 : ℕ) : ℤ) / 2) = -2 ^ 31 := by decide
  have hhigh : (((2 ^ 32 : ℕ) : ℤ) + 1) / 2 = 2 ^ 31 := by decide
  apply Int.bmod_eq_of_le
  · rw [hlow]
    exact hle
  · rw [hhigh]
    exact hlt

theorem toInt_days (h : timestamp.toNat / 86400 < 2 ^ 31) :
    toInt (timestamp / secondsPerDay) = (timestamp.toNat / 86400 : ℕ) := by
  rw [← toNat_days] at h ⊢
  exact toInt_eq h

theorem ofInt_natCast (n : ℕ) : UInt64.ofInt n = .ofNat n := by
  rw [UInt64.ofInt, ← UInt64.toNat_inj, UInt64.toNat_ofNat', UInt64.toNat_ofNat']
  omega

/-- The fields of a date for a day of the calendar. -/
def dateOf (date : CalendarDay) : Date := ⟨.ofNat date.day, .ofNat date.month, .ofNat date.year⟩

/-- A number of days that the conversion to `int` keeps either is that of a first of January after
the epoch, where the table of the months has no entry, or becomes the day with that number. -/
theorem timestampToDate_cases {days : ℕ} (h : toInt (timestamp / secondsPerDay) = days) :
    ∃ date : CalendarDay, date.number = epoch.number + days ∧
      (LaterNewYear date ∧ timestampToDate timestamp = .error .outOfBounds ∨
        ¬ LaterNewYear date ∧ 1970 ≤ date.year ∧ date.year < 2 ^ 64 ∧
          timestampToDate timestamp = .ok (dateOf date)) := by
  have hdays : days < 2 ^ 31 := by
    have := (toInt_bounds (timestamp / secondsPerDay)).2
    omega
  have hepoch : epochYear.toNat = 1970 := rfl
  have hnumber : daysBeforeYear 1970 = epoch.number := by decide
  obtain ⟨rest, last, hloop, hsum, hle, hlast, hless, hafter⟩ :=
    @exists_yearLoop days ((days : ℤ).toNat + 1) epochYear (by decide) (by omega) hdays
      (Nat.lt_succ_self _)
  rw [hepoch] at hsum hafter
  rw [hnumber] at hsum
  have hlt := UInt64.toNat_lt last
  have hrun : timestampToDate timestamp =
      (loop (monthTurn last) .depth 13 (rest, .ofNat 0) >>= fun (days, month) ↦
        pure ⟨UInt64.ofInt (days + 1), month + 1, last⟩) := by
    rw [timestampToDate, h, hloop]
    rfl
  by_cases hfull : rest = yearLength last.toNat
  · -- All the days of the year are left: the day is the first one of the next year.
    have hbefore := daysBeforeYear_succ (show 0 < last.toNat by omega)
    refine ⟨⟨last.toNat + 1, 1, 1, Nat.succ_pos _, Nat.one_pos, by decide, Nat.one_pos,
      monthLength_pos _ _⟩, ?_, Or.inl ⟨⟨⟨rfl, rfl⟩, ?_⟩, ?_⟩⟩
    · show daysBeforeYear (last.toNat + 1) + 0 = _
      omega
    · show 1970 < last.toNat + 1
      omega
    · rw [hrun, monthLoop_error (by decide) (by omega) (by rw [hfull]; exact Nat.zero_add _)
        (by decide)]
      rfl
  · obtain ⟨date, hyear, hday⟩ := CalendarDay.exists_dayOfYear (show 0 < last.toNat by omega)
      (show rest < yearLength last.toNat by omega)
    refine ⟨date, ?_, Or.inr ⟨?_, by omega, by omega, ?_⟩⟩
    · rw [CalendarDay.number, hyear, hday, hsum]
    · rintro ⟨hnew, hlater⟩
      rw [CalendarDay.isNewYear_iff, hday] at hnew
      rcases hlast with rfl | hlast
      · omega
      · omega
    · have hpos := date.day_pos
      have hmonth := date.month_pos
      rw [hrun, monthLoop_eq hyear hmonth (by omega) (by rw [hday]; exact Nat.zero_add _)
        (by decide), ok_bind, dateOf]
      have hday : ((date.day - 1 : ℕ) : ℤ) + 1 = (date.day : ℕ) := by omega
      have hmonth : date.month = date.month - 1 + 1 := by omega
      dsimp only
      rw [hday, ofInt_natCast, hyear, UInt64.ofNat_toNat]
      conv_rhs => rw [hmonth, UInt64.ofNat_add]
      rfl

/-- The fields of a date tell its day of the calendar. -/
theorem shows_unique {datetime : DateTime} {date other : CalendarDay} {clock : ClockTime}
    (h : datetime.Shows date clock) (hdate : datetime.date = dateOf other)
    (hyear : other.year < 2 ^ 64) : date = other := by
  have hmonth := other.month_le
  have hday := other.day_le
  have hday' := monthLength_le other.year other.month
  obtain ⟨hy, hm, hd, -, -, -⟩ := h
  rw [hdate, dateOf] at hy hm hd
  rw [UInt64.toNat_ofNat_of_lt' hyear] at hy
  rw [UInt64.toNat_ofNat_of_lt' (Nat.lt_of_le_of_lt hmonth (by decide))] at hm
  rw [UInt64.toNat_ofNat_of_lt'
    (Nat.lt_of_le_of_lt (hday.trans hday') (by decide))] at hd
  exact CalendarDay.ext hy.symm hm.symm hd.symm

theorem timestampToDate_eq {date : CalendarDay} {days : ℕ}
    (h : toInt (timestamp / secondsPerDay) = days) (hnumber : date.number = epoch.number + days)
    (hnew : ¬ LaterNewYear date) :
    1970 ≤ date.year ∧ date.year < 2 ^ 64 ∧ timestampToDate timestamp = .ok (dateOf date) := by
  obtain ⟨other, hother, hcases⟩ := timestampToDate_cases h
  obtain rfl : date = other := CalendarDay.number_injective (hnumber.trans hother.symm)
  rcases hcases with ⟨hnew', -⟩ | ⟨-, hyear, hlt, hdate⟩
  · exact absurd hnew' hnew
  · exact ⟨hyear, hlt, hdate⟩

theorem timestampToDate_newYear {date : CalendarDay} {days : ℕ}
    (h : toInt (timestamp / secondsPerDay) = days) (hnumber : date.number = epoch.number + days)
    (hnew : LaterNewYear date) : timestampToDate timestamp = .error .outOfBounds := by
  obtain ⟨other, hother, hcases⟩ := timestampToDate_cases h
  obtain rfl : date = other := CalendarDay.number_injective (hnumber.trans hother.symm)
  rcases hcases with ⟨-, hdate⟩ | ⟨hnew', -⟩
  · exact hdate
  · exact absurd hnew hnew'

theorem lt_of_intSub {lhs length rest : ℤ} (hlength : 0 < length) (hlhs : lhs < 0)
    (h : intSub lhs length = .ok rest) : rest < 0 := by
  rw [intSub] at h
  split at h
  · cases h
    omega
  · cases h

theorem yearTurn_negative {days : ℤ} {year : UInt64} {next : (ℤ × UInt64) ⊕ (ℤ × UInt64)}
    (hdays : days < 0) (h : yearTurn (days, year) = .ok next) : next = .inr (days, year) := by
  have hlength := yearLength_pos year.toNat
  rw [yearTurn, daysPerYear_eq, bind_eq_ok] at h
  obtain ⟨rest, hrest, h⟩ := h
  rw [if_neg (lt_of_intSub (by omega) hdays hrest).not_gt] at h
  exact (pure_eq_ok.mp h).symm

theorem monthTurn_negative {days : ℤ} {year : UInt64} {next : (ℤ × UInt64) ⊕ (ℤ × UInt64)}
    (hdays : days < 0) (h : monthTurn year (days, .ofNat 0) = .ok next) :
    next = .inr (days, .ofNat 0) := by
  have hlength := monthLength_pos year.toNat (0 + 1)
  rw [monthTurn, daysPerMonthAt_eq (by decide), ok_bind, bind_eq_ok] at h
  obtain ⟨rest, hrest, h⟩ := h
  rw [if_neg (lt_of_intSub (by omega) hdays hrest).not_ge] at h
  exact (pure_eq_ok.mp h).symm

/-- Days that the conversion to `int` makes negative go through both loops as they are, and the
number of the day is none of a month. -/
theorem day_of_negative (h : toInt (timestamp / secondsPerDay) < 0) {date : Date}
    (hdate : timestampToDate timestamp = .ok date) : date.day = 0 ∨ 31 < date.day.toNat := by
  have hlow := (toInt_bounds (timestamp / secondsPerDay)).1
  rw [timestampToDate] at hdate
  generalize toInt (timestamp / secondsPerDay) = negative at h hlow hdate
  dsimp only at hdate
  rw [bind_eq_ok] at hdate
  obtain ⟨⟨days, year⟩, hyears, hdate⟩ := hdate
  obtain ⟨rfl, rfl⟩ := Prod.mk.inj (eq_of_loop_leaves hyears fun _ ↦ yearTurn_negative h)
  rw [bind_eq_ok] at hdate
  obtain ⟨⟨days, month⟩, hmonths, hdate⟩ := hdate
  obtain ⟨rfl, rfl⟩ := Prod.mk.inj (eq_of_loop_leaves hmonths fun _ ↦ monthTurn_negative h)
  obtain rfl := pure_eq_ok.mp hdate
  dsimp only
  rw [← UInt64.toNat_inj, UInt64.ofInt, UInt64.toNat_ofNat']
  have hzero : (0 : UInt64).toNat = 0 := rfl
  omega

/-- The time of the day of a number of seconds. -/
def clockOf (seconds : ℕ) : ClockTime :=
  ⟨seconds / 3600 % 24, seconds / 60 % 60, seconds % 60, Nat.mod_lt _ (by decide),
    Nat.mod_lt _ (by decide), Nat.mod_lt _ (by decide)⟩

theorem seconds_clockOf (seconds : ℕ) : (clockOf seconds).seconds = seconds % 86400 := by
  rw [clockOf, ClockTime.seconds]
  dsimp only
  omega

theorem shows_of_timestamp {date : CalendarDay} (hyear : date.year < 2 ^ 64) :
    DateTime.Shows ⟨dateOf date, timestampToTime timestamp⟩ date (clockOf timestamp.toNat) := by
  have hmonth := date.month_le
  have hday := date.day_le.trans (monthLength_le date.year date.month)
  constructor
  · exact UInt64.toNat_ofNat_of_lt' hyear
  · exact UInt64.toNat_ofNat_of_lt' (Nat.lt_of_le_of_lt hmonth (by decide))
  · exact UInt64.toNat_ofNat_of_lt' (Nat.lt_of_le_of_lt hday (by decide))
  · rfl
  · rfl
  · rfl

/-- There is one date and time for the fields. -/
theorem DateTime.Shows.unique {datetime other : DateTime} {date : CalendarDay} {clock : ClockTime}
    (h : datetime.Shows date clock) (hother : other.Shows date clock) : datetime = other := by
  obtain ⟨⟨day, month, year⟩, ⟨second, minute, hour⟩⟩ := datetime
  obtain ⟨⟨day', month', year'⟩, ⟨second', minute', hour'⟩⟩ := other
  obtain rfl := UInt64.toNat_inj.mp (h.year.trans hother.year.symm)
  obtain rfl := UInt64.toNat_inj.mp (h.month.trans hother.month.symm)
  obtain rfl := UInt64.toNat_inj.mp (h.day.trans hother.day.symm)
  obtain rfl := UInt64.toNat_inj.mp (h.hour.trans hother.hour.symm)
  obtain rfl := UInt64.toNat_inj.mp (h.minute.trans hother.minute.symm)
  obtain rfl := UInt64.toNat_inj.mp (h.second.trans hother.second.symm)
  rfl

theorem clockOf_eq (days : ℕ) (clock : ClockTime) :
    clockOf (days * 86400 + clock.seconds) = clock := by
  have hhour := clock.hour_lt
  have hminute := clock.minute_lt
  have hsecond := clock.second_lt
  rw [ClockTime.seconds]
  ext
  · show (days * 86400 + _) / 3600 % 24 = _
    omega
  · show (days * 86400 + _) / 60 % 60 = _
    omega
  · show (days * 86400 + _) % 60 = _
    omega

end FromTimestamp

section ToTimestamp

theorem secondsPerDay_eq : secondsPerDay = .ofNat 86400 := by decide

theorem secondsPerHours_eq : secondsPerHours = .ofNat 3600 := by decide

theorem secondsPerMinute_eq : secondsPerMinute = .ofNat 60 := by decide

theorem foldl_years (count : ℕ) (hcount : 1970 + count < 2 ^ 64) :
    (List.range' 1970 count).foldl (fun timestamp year ↦
        timestamp + UInt64.ofInt (daysPerYear (isLeapYear (.ofNat year))) * secondsPerDay) 0 =
      .ofNat ((daysBeforeYear (1970 + count) - epoch.number) * 86400) := by
  have hepoch : epoch.number = daysBeforeYear 1970 := by decide
  induction count with
  | zero =>
    rw [hepoch, Nat.add_zero, Nat.sub_self]
    rfl
  | succ count ih =>
    have hmono := daysBeforeYear_mono (Nat.le_add_right 1970 count)
    have hyear : (UInt64.ofNat (1970 + count)).toNat = 1970 + count :=
      UInt64.toNat_ofNat_of_lt' (by rw [UInt64.size]; omega)
    have hsum : (daysBeforeYear (1970 + (count + 1)) - epoch.number) * 86400 =
        (daysBeforeYear (1970 + count) - epoch.number) * 86400 +
          yearLength (1970 + count) * 86400 := by
      rw [← Nat.add_assoc, daysBeforeYear_succ (by omega)]
      omega
    rw [List.range'_1_concat, List.foldl_append, ih (by omega), List.foldl_cons, List.foldl_nil,
      daysPerYear_eq, hyear, ofInt_natCast, hsum, UInt64.ofNat_add, UInt64.ofNat_mul _ 86400,
      UInt64.ofNat_mul _ 86400, secondsPerDay_eq]

theorem foldlM_months {year timestamp : UInt64} {count : ℕ} (hcount : count ≤ 12) :
    (List.range count).foldlM (fun timestamp month ↦ do
        let length ← daysPerMonthAt (isLeapYear year) (.ofNat month)
        pure (timestamp + UInt64.ofInt length * secondsPerDay)) timestamp =
      (.ok (timestamp + .ofNat (daysOfMonths year.toNat count * 86400)) : Except Fault UInt64) := by
  induction count with
  | zero =>
    rw [daysOfMonths, Nat.zero_mul]
    exact congrArg Except.ok (UInt64.add_zero timestamp).symm
  | succ count ih =>
    rw [List.range_succ, List.foldlM_append, ih (by omega), ok_bind, List.foldlM_cons,
      daysPerMonthAt_eq hcount, ok_bind, ofInt_natCast, daysOfMonths, Nat.add_mul, UInt64.ofNat_add,
      UInt64.add_assoc, UInt64.ofNat_mul (monthLength _ _) 86400, secondsPerDay_eq]
    rfl

/-- A valid date becomes the number of seconds from the epoch to it, modulo `2 ^ 64`. -/
theorem datetimeToTimestamp_eq {datetime : DateTime} {date : CalendarDay} {clock : ClockTime}
    (h : datetime.Shows date clock) (hyear : 1970 ≤ date.year) :
    datetimeToTimestamp datetime =
      .ok (.ofNat ((date.number - epoch.number) * 86400 + clock.seconds)) := by
  obtain ⟨⟨day, month, year⟩, ⟨second, minute, hour⟩⟩ := datetime
  obtain ⟨hy, hm, hd, hhour, hminute, hsecond⟩ := h
  dsimp only at hy hm hd hhour hminute hsecond
  have hmono := daysBeforeYear_mono hyear
  have hepoch : daysBeforeYear 1970 = epoch.number := by decide
  have hlt := UInt64.toNat_lt year
  have hmonth : (month - 1).toNat = date.month - 1 := by
    have hle : (1 : UInt64) ≤ month := UInt64.le_iff_toNat_le.mpr (hm ▸ date.month_pos)
    rw [UInt64.toNat_sub_of_le _ _ hle, hm]
    rfl
  have hday : day - 1 = .ofNat (date.day - 1) := by
    rw [UInt64.ofNat_sub date.day_pos, ← hd, UInt64.ofNat_toNat]
    rfl
  have hyears := foldl_years (date.year - 1970) (by omega)
  have hmonths := @foldlM_months year (.ofNat ((daysBeforeYear date.year - epoch.number) * 86400))
    (date.month - 1) (by have := date.month_le; omega)
  rw [Nat.add_sub_of_le hyear] at hyears
  rw [datetimeToTimestamp]
  have hfirst : epochYear.toNat = 1970 := rfl
  rw [hfirst, hy, hyears, hmonth, hmonths, ok_bind, pure_eq_ok, hday]
  have htotal : (date.number - epoch.number) * 86400 + clock.seconds =
      (daysBeforeYear date.year - epoch.number) * 86400 +
        daysOfMonths year.toNat (date.month - 1) * 86400 + (date.day - 1) * 86400 +
          hour.toNat * 3600 + minute.toNat * 60 + second.toNat := by
    rw [CalendarDay.number, CalendarDay.dayOfYear, ClockTime.seconds, hy, hhour, hminute, hsecond]
    omega
  rw [htotal]
  simp only [UInt64.ofNat_add, UInt64.ofNat_mul, UInt64.ofNat_toNat, secondsPerDay_eq,
    secondsPerHours_eq, secondsPerMinute_eq]

end ToTimestamp

section RoundTrips

variable {timestamp : UInt64} {datetime : DateTime} {date : CalendarDay} {clock : ClockTime}

theorem converts_iff (h : timestamp.toNat < 2 ^ 40) :
    Converts timestamp ↔
      ¬ ∃ date, LaterNewYear date ∧ date.number = epoch.number + timestamp.toNat / 86400 := by
  have hdays := toInt_days (show timestamp.toNat / 86400 < 2 ^ 31 by omega)
  constructor
  · rintro ⟨datetime, _, _, hdatetime, -⟩ ⟨date, hnew, hnumber⟩
    rw [timestampToDatetime, timestampToDate_newYear hdays hnumber hnew] at hdatetime
    cases hdatetime
  · intro hnone
    obtain ⟨date, hnumber, ⟨hnew, -⟩ | ⟨-, hyear, hlt, hdate⟩⟩ := timestampToDate_cases hdays
    · exact absurd ⟨date, hnew, hnumber⟩ hnone
    · have hshows := @shows_of_timestamp timestamp date hlt
      refine ⟨_, date, _, ?_, hshows, hnumber, seconds_clockOf _, ?_⟩
      · rw [timestampToDatetime, hdate]
        rfl
      · rw [datetimeToTimestamp_eq hshows hyear, seconds_clockOf, hnumber, Nat.add_sub_cancel_left,
          Nat.div_add_mod', UInt64.ofNat_toNat]

theorem dateTime_readsBack_iff (h : datetime.Shows date clock) (hyear : 1970 ≤ date.year) :
    ReadsBack datetime ↔ date.number < epoch.number + 2 ^ 31 ∧ ¬ LaterNewYear date := by
  have hstamp := datetimeToTimestamp_eq h hyear
  have hepoch : epoch.number ≤ date.number := by
    exact (daysBeforeYear_mono hyear).trans (Nat.le_add_right _ _)
  have hclock := clock.seconds_lt
  constructor
  · rintro ⟨timestamp, -, hdatetime⟩
    rw [timestampToDatetime, bind_eq_ok] at hdatetime
    obtain ⟨date', hdate', hdatetime⟩ := hdatetime
    obtain rfl := pure_eq_ok.mp hdatetime
    rcases lt_or_ge (toInt (timestamp / secondsPerDay)) 0 with hneg | hpos
    · have hday := date.day_pos
      have hday' := date.day_le.trans (monthLength_le date.year date.month)
      rw [← h.day] at hday hday'
      rcases day_of_negative hneg hdate' with hzero | hlarge
      · dsimp only at hday
        rw [hzero] at hday
        cases hday
      · exact absurd hday' hlarge.not_ge
    · obtain ⟨days, hdays⟩ := Int.eq_ofNat_of_zero_le hpos
      have hbound := (toInt_bounds (timestamp / secondsPerDay)).2
      obtain ⟨other, hnumber, ⟨-, herror⟩ | ⟨hnew, -, hlt, hother⟩⟩ := timestampToDate_cases hdays
      · rw [hdate'] at herror
        cases herror
      · rw [hdate'] at hother
        obtain rfl := shows_unique h (Except.ok.inj hother) hlt
        exact ⟨by omega, hnew⟩
  · rintro ⟨hlt, hnew⟩
    have hsmall : (date.number - epoch.number) * 86400 + clock.seconds < 2 ^ 64 := by omega
    refine ⟨_, hstamp, ?_⟩
    have htoNat := UInt64.toNat_ofNat_of_lt' hsmall
    have hquot : (UInt64.ofNat ((date.number - epoch.number) * 86400 + clock.seconds)).toNat / 86400
        = date.number - epoch.number := by
      rw [htoNat]
      omega
    have hdays := toInt_days (hquot.trans_lt (by omega))
    rw [hquot] at hdays
    obtain ⟨-, hyearLt, hdate⟩ := timestampToDate_eq hdays (by omega) hnew
    have hshows := @shows_of_timestamp
      (.ofNat ((date.number - epoch.number) * 86400 + clock.seconds)) date hyearLt
    rw [htoNat, clockOf_eq] at hshows
    rw [timestampToDatetime, hdate, ok_bind, pure_eq_ok]
    exact hshows.unique h

/-- A timestamp is converted, and becomes itself again, exactly when its day is no first of January
after the epoch; a date from the epoch on, exactly when it is none and its number of days fits into
an `int`. -/
theorem datetime_roundTrips_iff (timestamp : UInt64) (hsmall : timestamp.toNat < 2 ^ 40)
    (datetime : DateTime) (date : CalendarDay) (clock : ClockTime)
    (hvalid : datetime.Shows date clock) (hyear : 1970 ≤ date.year) :
    (Converts timestamp ↔
      ¬ ∃ date, LaterNewYear date ∧ date.number = epoch.number + timestamp.toNat / 86400) ∧
    (ReadsBack datetime ↔ date.number < epoch.number + 2 ^ 31 ∧ ¬ LaterNewYear date) :=
  ⟨converts_iff hsmall, dateTime_readsBack_iff hvalid hyear⟩

/-- The last second of a leap day, both ways. -/
theorem datetime_roundTrips_leapDay :
    Converts 951868799 ∧ ReadsBack ⟨⟨29, 2, 2000⟩, ⟨59, 59, 23⟩⟩ := by
  have hiff := datetime_roundTrips_iff 951868799 (by decide) ⟨⟨29, 2, 2000⟩, ⟨59, 59, 23⟩⟩
    ⟨2000, 2, 29, by decide, by decide, by decide, by decide, by decide⟩
    ⟨23, 59, 59, by decide, by decide, by decide⟩ ⟨rfl, rfl, rfl, rfl, rfl, rfl⟩ (by decide)
  refine ⟨hiff.1.mpr ?_, hiff.2.mpr ⟨by decide, fun h ↦ absurd h.1.1 (by decide)⟩⟩
  rintro ⟨date, hnew, hnumber⟩
  have hday : date.number = CalendarDay.number
      ⟨2000, 2, 29, by decide, by decide, by decide, by decide, by decide⟩ :=
    hnumber.trans (by decide)
  rw [CalendarDay.number_injective hday] at hnew
  exact absurd hnew.1.1 (by decide)

/-- The first second of 1971 has no month. -/
theorem datetime_roundTrips_fails :
    ¬ ((∀ timestamp : UInt64, timestamp.toNat < 2 ^ 40 → Converts timestamp) ∧
      ∀ datetime date clock, DateTime.Shows datetime date clock → 1970 ≤ date.year →
        ReadsBack datetime) := by
  rintro ⟨hconverts, -⟩
  obtain ⟨datetime, _, _, hdatetime, -⟩ := hconverts 31536000 (by decide)
  have hfault : timestampToDatetime 31536000 = .error .outOfBounds := by decide +kernel
  rw [hfault] at hdatetime
  cases hdatetime

end RoundTrips

end Brutal.Calendar
