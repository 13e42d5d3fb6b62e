import Mlibc.TimeCivil

/-! # The times that survive the conversion to a date -/

namespace Mlibc.Time

open Calendar Option

/-- Every field is in its range. -/
structure Tm.Canonical (tm : Tm) : Prop where
  sec : 0 ≤ tm.sec ∧ tm.sec < 60
  min : 0 ≤ tm.min ∧ tm.min < 60
  hour : 0 ≤ tm.hour ∧ tm.hour < 24
  mday : 1 ≤ tm.mday ∧ tm.mday ≤ daysInMonth (tm.year + 1900) (tm.mon + 1)
  mon : 0 ≤ tm.mon ∧ tm.mon < 12
  wday : 0 ≤ tm.wday ∧ tm.wday < 7

/-- The fields are the date, the time of day and the day of the week of a time.  The first day
was a Thursday. -/
structure Tm.Denotes (tm : Tm) (time : Int) : Prop where
  date : ∃ date, IsDay (time / 86400) date ∧ tm.year + 1900 = date.year ∧
    tm.mon + 1 = date.month ∧ tm.mday = date.day
  clock : tm.hour * 3600 + tm.min * 60 + tm.sec = time % 86400
  wday : tm.wday = (time / 86400 + 4) % 7

def Tm.DenotesYearDay (tm : Tm) (time : Int) : Prop :=
  ∃ date first, IsDay (time / 86400) date ∧ IsDay (time / 86400 - tm.yday) first ∧
    first.year = date.year ∧ first.month = 1 ∧ first.day = 1

/-- The structure is the date of the time, and leads back to the time. -/
structure Tm.RoundTrips (tm : Tm) (time : Int) : Prop where
  converted : gmtimeR time = some tm
  canonical : tm.Canonical
  denotes : tm.Denotes time
  back : timegm tm = some time

def Convertible (time : Int) : Prop :=
  (0 ≤ time ∨ 86400 ∣ time) ∧ -2147483648 ≤ time / 86400 ∧ time / 86400 ≤ 2146764179

def YearDayComputed (time : Int) : Prop :=
  ∀ date, IsDay (time / 86400) date → date.month ≤ 2 ∨ 0 ≤ date.year ∧ IsLeapYear date.year

def tmOf (clock : Int) (date : Date) : Tm where
  sec := clock % 60
  min := clock / 60 % 60
  hour := clock / 3600
  mday := date.day
  mon := date.month - 1
  year := date.year - 1900
  wday := (dayNumber date + 4) % 7
  yday := toInt (toUnsigned (yeardayFromDate (toUnsigned date.year) date.month date.day - 1))
  isdst := -1
  gmtoff := 0

theorem weekdayFromDays_eq (days : Int) : weekdayFromDays days = (days + 4) % 7 := by
  unfold weekdayFromDays
  split_ifs with later
  · rw [Int.tmod_eq_emod_of_nonneg (by omega), toUnsigned_of_lt (by omega) (by omega)]
  have opposite : days + 5 = -(-days - 5) := by omega
  rw [opposite, Int.neg_tmod, Int.tmod_eq_emod_of_nonneg (by omega),
    toUnsigned_of_lt (by omega) (by omega)]
  omega

theorem daysBeforeDecember_le (year : Int) : daysBeforeMonth year 12 ≤ 335 := by
  unfold daysBeforeMonth
  split_ifs <;> omega

variable {date : Date}

theorem year_bounds (inside : InInt (dayNumber date)) :
    -10000000 ≤ date.year ∧ date.year ≤ 10000000 := by
  have ⟨low, high⟩ := inside
  have monthLow := daysBeforeMonth_nonneg date.year date.month_pos date.month_le
  have inYear := daysBeforeMonth_add_day_le date
  have dayPos := date.day_pos
  have december := daysBeforeDecember_le date.year
  unfold dayNumber daysBeforeYear at low high
  omega

theorem toInt_day (date : Date) : toInt date.day = date.day := by
  have low := date.day_pos
  have high := date.day_le.trans (daysInMonth_le _ _)
  exact toInt_of_inInt ⟨by omega, by omega⟩

theorem toInt_month (date : Date) : toInt (toUnsigned (date.month - 1)) = date.month - 1 := by
  have low := date.month_pos
  have high := date.month_le
  rw [toUnsigned_of_lt (by omega) (by omega)]
  exact toInt_of_inInt ⟨by omega, by omega⟩

section Gmtime

variable {time : Int}

section

variable (rounds : 0 ≤ time ∨ 86400 ∣ time)

include rounds

theorem gmtimeR_eq (small : toInt (time / 86400) ≤ 2146906431) :
    ∃ date, dayNumber date = toInt (time / 86400) ∧
      gmtimeR time = some (tmOf (time % 86400) date) := by
  have days : time.tdiv (60 * 60 * 24) = time / 86400 := tdiv_eq_ediv_of rounds
  have inside := inInt_toInt (time / 86400)
  obtain ⟨sec, min, hour⟩ : toInt (time.tmod 60) = time % 86400 % 60 ∧
      toInt ((time.tdiv 60).tmod 60) = time % 86400 / 60 % 60 ∧
      toInt ((time.tdiv (60 * 60)).tmod 24) = time % 86400 / 3600 := by
    rw [tmod_eq_emod_of (by omega), tdiv_eq_ediv_of (by omega), tmod_eq_emod_of (by omega),
      tdiv_eq_ediv_of (by omega), tmod_eq_emod_of (by omega),
      toInt_of_inInt ⟨by omega, by omega⟩, toInt_of_inInt ⟨by omega, by omega⟩,
      toInt_of_inInt ⟨by omega, by omega⟩]
    omega
  obtain ⟨date, number, civil⟩ := civilFromDays_eq inside.1 small
  refine ⟨date, number, ?_⟩
  have year := year_bounds (number ▸ inside)
  have weekdayInside : InInt ((toInt (time / 86400) + 4) % 7) := ⟨by omega, by omega⟩
  have yearInside : InInt (date.year - 1900) := ⟨by omega, by omega⟩
  simp only [gmtimeR, days, civil, weekdayFromDays_eq, sec, min, hour, tmOf, number, toInt_day,
    toInt_month,
    toInt_of_inInt weekdayInside, checkInt_of_inInt yearInside, bind_eq_bind,
    bind_some]
  rfl

theorem gmtimeR_eq_none (large : 2146906431 < toInt (time / 86400)) : gmtimeR time = none := by
  have days : time.tdiv (60 * 60 * 24) = time / 86400 := tdiv_eq_ediv_of rounds
  have overflow := civilFromDays_eq_none large (inInt_toInt (time / 86400)).2
  simp only [gmtimeR, days, overflow]
  rfl

end

theorem rounds_of_canonical {tm : Tm} (converted : gmtimeR time = some tm)
    (canonical : tm.Canonical) : 0 ≤ time ∨ 86400 ∣ time := by
  obtain ⟨_, _, result⟩ := bind_eq_some_iff.mp converted
  obtain ⟨_, _, result⟩ := bind_eq_some_iff.mp result
  cases result
  have sec := canonical.sec.1
  have min := canonical.min.1
  have hour := canonical.hour.1
  by_cases nonnegative : 0 ≤ time
  · exact .inl nonnegative
  obtain ⟨past, rfl⟩ : ∃ past, time = -past := ⟨-time, by omega⟩
  simp only [Int.neg_tdiv, Int.neg_tmod] at sec min hour
  rw [Int.tmod_eq_emod_of_nonneg (by omega)] at sec
  rw [Int.tdiv_eq_ediv_of_nonneg (by omega), Int.tmod_eq_emod_of_nonneg (by omega)] at min hour
  rw [toInt_of_inInt ⟨by omega, by omega⟩] at sec min hour
  omega

end Gmtime

theorem timegm_eq {clock : Int} (nonnegative : 0 ≤ clock) (inDay : clock < 86400)
    (inside : InInt (dayNumber date)) :
    timegm (tmOf clock date) =
      if dayNumber date ≤ 2146764179 then some (dayNumber date * 86400 + clock) else none := by
  have year := year_bounds inside
  have low := date.month_pos
  have high := date.month_le
  have yearInside : InInt date.year := ⟨by omega, by omega⟩
  have monthInside : InInt date.month := ⟨by omega, by omega⟩
  have hoursInside : InInt (clock / 3600 * 60) := ⟨by omega, by omega⟩
  have secondsInside : InInt (clock / 3600 * 60 * 60) := ⟨by omega, by omega⟩
  have minutesInside : InInt (clock / 60 % 60 * 60) := ⟨by omega, by omega⟩
  simp only [timegm, tmOf, sub_add_cancel, checkInt_of_inInt yearInside,
    checkInt_of_inInt monthInside, toUnsigned_month, toUnsigned_day, daysFromCivil_eq date inside,
    checkInt_of_inInt hoursInside, checkInt_of_inInt secondsInside,
    checkInt_of_inInt minutesInside, bind_eq_bind, bind_some]
  split_ifs
  · apply congrArg some
    omega
  · rfl

theorem tmOf_canonical {clock : Int} (date : Date) (nonnegative : 0 ≤ clock)
    (inDay : clock < 86400) : (tmOf clock date).Canonical := by
  have low := date.month_pos
  have high := date.month_le
  constructor <;> simp only [tmOf, sub_add_cancel]
  · omega
  · omega
  · omega
  · exact ⟨date.day_pos, date.day_le⟩
  · omega
  · omega

theorem tmOf_denotes {time : Int} (number : dayNumber date = time / 86400) :
    (tmOf (time % 86400) date).Denotes time := by
  constructor <;> simp only [tmOf, sub_add_cancel]
  · exact ⟨date, isDay_iff.mpr number, rfl, rfl, rfl⟩
  · omega
  · rw [number]

theorem roundTrips_iff {time : Int} {tm : Tm} : tm.RoundTrips time ↔ Convertible time ∧
      ∃ date, IsDay (time / 86400) date ∧ tm = tmOf (time % 86400) date := by
  have clockLow : 0 ≤ time % 86400 := by omega
  have clockHigh : time % 86400 < 86400 := by omega
  constructor
  · intro roundTrips
    have rounds := rounds_of_canonical roundTrips.converted roundTrips.canonical
    have inside := inInt_toInt (time / 86400)
    have small : toInt (time / 86400) ≤ 2146906431 := by
      apply not_lt.mp
      intro large
      have failed := gmtimeR_eq_none rounds large
      rw [roundTrips.converted] at failed
      cases failed
    obtain ⟨date, number, converted⟩ := gmtimeR_eq rounds small
    rw [roundTrips.converted] at converted
    cases converted
    have back := roundTrips.back
    rw [timegm_eq clockLow clockHigh (number ▸ inside)] at back
    split_ifs at back with fits
    have sameTime := some.inj back
    have sameDay : dayNumber date = time / 86400 := by omega
    rw [← number, sameDay] at inside
    exact ⟨⟨rounds, inside.1, sameDay ▸ fits⟩, date, isDay_iff.mpr sameDay, rfl⟩
  · rintro ⟨⟨rounds, low, high⟩, date, isDay, rfl⟩
    have inside : InInt (time / 86400) := ⟨low, by omega⟩
    have number := isDay_iff.mp isDay
    have converted := gmtimeR_eq rounds
    rw [toInt_of_inInt inside] at converted
    obtain ⟨other, otherNumber, converted⟩ := converted (by omega)
    cases dayNumber_injective (number.trans otherNumber.symm)
    constructor
    · exact converted
    · exact tmOf_canonical date clockLow clockHigh
    · exact tmOf_denotes number
    · rw [timegm_eq clockLow clockHigh (number ▸ inside), number, if_pos high]
      apply congrArg some
      omega

/-- The quotient `4 * year / 4` is the year, so that the factor is the same for all years. -/
theorem leapFactor_eq {year : Int} (low : -10000000 ≤ year) (high : year ≤ 10000000) :
    toUnsigned (1 + toUnsigned (toUnsigned year - toUnsigned (4 * toUnsigned year) / 4 + 2) / 3) =
      if 0 ≤ year then 1 else 1073741825 := by
  unfold toUnsigned
  split_ifs <;> omega

theorem yday_eq_iff (clock : Int) (inside : InInt (dayNumber date)) :
    (tmOf clock date).yday = daysBeforeMonth date.year date.month + (date.day - 1) ↔
      date.month ≤ 2 ∨ 0 ≤ date.year ∧ IsLeapYear date.year := by
  obtain ⟨yearLow, yearHigh⟩ := year_bounds inside
  have low := date.month_pos
  have high := date.month_le
  have dayPos := date.day_pos
  have dayLe := date.day_le.trans (daysInMonth_le _ _)
  simp only [tmOf, yeardayFromDate, leapFactor_eq yearLow yearHigh]
  generalize date.month = month at *
  unfold daysBeforeMonth toUnsigned toInt
  by_cases leap : IsLeapYear date.year <;> by_cases late : 0 ≤ date.year
  all_goals interval_cases month <;> simp [leap] <;> omega

theorem dayNumber_first {first : Date} (month : first.month = 1) (day : first.day = 1) :
    dayNumber first = daysBeforeYear first.year - 719162 := by
  simp [dayNumber, month, day, daysBeforeMonth]

theorem denotesYearDay_iff {time : Int} (isDay : IsDay (time / 86400) date)
    (tm : Tm) : tm.DenotesYearDay time ↔
      tm.yday = daysBeforeMonth date.year date.month + (date.day - 1) := by
  have number := isDay_iff.mp isDay
  constructor
  · rintro ⟨other, first, otherDay, firstDay, year, month, day⟩
    cases dayNumber_injective (number.trans (isDay_iff.mp otherDay).symm)
    have firstNumber := isDay_iff.mp firstDay
    rw [dayNumber_first month day, year] at firstNumber
    unfold dayNumber at number
    omega
  intro yday
  refine ⟨date, newYear date.year, isDay, ?_, rfl, rfl, rfl⟩
  rw [isDay_iff, dayNumber_first rfl rfl]
  change daysBeforeYear date.year - 719162 = time / 86400 - tm.yday
  unfold dayNumber at number
  omega

/-- The conversion of a time to a date, and back, is right for the convertible times for which the
day of the year is computed, and for no others. -/
theorem gmtimeR_timegm_iff (time : Int) :
    (∃ tm : Tm, tm.RoundTrips time ∧ (0 ≤ tm.yday ∧ tm.yday < 366) ∧ tm.DenotesYearDay time) ↔
      Convertible time ∧ YearDayComputed time := by
  constructor
  · rintro ⟨tm, roundTrips, _, denotes⟩
    obtain ⟨convertible, date, isDay, rfl⟩ := roundTrips_iff.mp roundTrips
    have number := isDay_iff.mp isDay
    have inside : InInt (dayNumber date) := by
      rw [number]
      exact ⟨convertible.2.1, convertible.2.2.trans (by decide)⟩
    refine ⟨convertible, ?_⟩
    intro other otherDay
    cases dayNumber_injective (number.trans (isDay_iff.mp otherDay).symm)
    exact (yday_eq_iff _ inside).mp ((denotesYearDay_iff isDay _).mp denotes)
  rintro ⟨convertible, computed⟩
  obtain ⟨date, isDay⟩ := exists_isDay (time / 86400)
  have number := isDay_iff.mp isDay
  have inside : InInt (dayNumber date) := by
    rw [number]
    exact ⟨convertible.2.1, convertible.2.2.trans (by decide)⟩
  have yday := (yday_eq_iff (time % 86400) inside).mpr (computed date isDay)
  refine ⟨tmOf (time % 86400) date, roundTrips_iff.mpr ⟨convertible, date, isDay, rfl⟩, ?_,
    (denotesYearDay_iff isDay _).mpr yday⟩
  have inYear := daysBeforeMonth_add_day_le date
  have low := daysBeforeMonth_nonneg date.year date.month_pos date.month_le
  have dayPos := date.day_pos
  have december := daysBeforeDecember_le date.year
  omega

/-- One second before the epoch has -1 seconds, and a time in November 2023 the wrong day. -/
theorem gmtimeR_wrong : (¬∃ tm : Tm, tm.RoundTrips (-1)) ∧
      ¬∃ tm : Tm, tm.RoundTrips 1700000000 ∧ tm.DenotesYearDay 1700000000 := by
  constructor
  · rintro ⟨tm, converted, canonical, _, _⟩
    have result : gmtimeR (-1) = some ⟨-1, 0, 0, 1, 0, 70, 4, 0, -1, 0⟩ := by decide
    cases result.symm.trans converted
    exact absurd canonical.sec.1 (by decide)
  rintro ⟨tm, ⟨converted, _, _, _⟩, denotes⟩
  have result : gmtimeR 1700000000 = some ⟨20, 13, 22, 14, 10, 123, 2, 318, -1, 0⟩ := by decide
  cases result.symm.trans converted
  have isDay : IsDay (1700000000 / 86400)
      ⟨2023, 11, 14, by decide, by decide, by decide, by decide⟩ := isDay_iff.mpr (by decide)
  have yday := (denotesYearDay_iff isDay _).mp denotes
  exact absurd yday (by decide)

end Mlibc.Time
