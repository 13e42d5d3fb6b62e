import Mlibc.Strftime
import Mlibc.TimeRoundTrip
import Mlibc.TimeZone

/-! # Fields that are computed from a date -/

namespace Mlibc.Time

open Calendar Strftime

/-- The days since the first of January. -/
def yearDay (date : Date) : Int :=
  dayNumber date - dayNumber (newYear date.year)

theorem yearDay_eq (date : Date) :
    yearDay date = daysBeforeMonth date.year date.month + (date.day - 1) := by
  have january : daysBeforeMonth date.year 1 = 0 := rfl
  simp only [yearDay, newYear, dayNumber]
  omega

theorem dayNumber_eq (date : Date) :
    dayNumber date = daysBeforeYear date.year - 719162 + yearDay date := by
  rw [yearDay_eq]
  unfold dayNumber
  omega

theorem yearDay_bounds (date : Date) : 0 ≤ yearDay date ∧ yearDay date <
      daysBeforeYear (date.year + 1) - daysBeforeYear date.year := by
  have low := daysBeforeMonth_nonneg date.year date.month_pos date.month_le
  have inYear := daysBeforeMonth_add_day_le date
  have dayPos := date.day_pos
  rw [yearDay_eq, daysBeforeYear_succ]
  omega

/-! ### The day of the year -/

theorem yeardayFromDate_iff (date : Date) (low : 0 ≤ date.year) (high : date.year < 4294967296) :
    yeardayFromDate date.year date.month date.day = yearDay date + 1 ↔
      date.month ≤ 2 ∨ IsLeapYear date.year ∧ date.year < 1073741824 := by
  have monthLow := date.month_pos
  have monthHigh := date.month_le
  have dayPos := date.day_pos
  have dayLe := date.day_le.trans (daysInMonth_le _ _)
  rw [yearDay_eq, yeardayFromDate]
  generalize date.month = month at *
  unfold daysBeforeMonth toUnsigned
  by_cases leap : IsLeapYear date.year
  all_goals interval_cases month <;> simp [leap] <;> omega

theorem gmtimeR_date {time : Int} {tm : Tm} (converted : gmtimeR time = some tm) :
    ∃ date, InInt (dayNumber date) ∧ tm.year + 1900 = date.year ∧ tm.mon + 1 = date.month ∧
      tm.mday = date.day ∧ tm.yday = (tmOf 0 date).yday := by
  have inside := inInt_toInt (time.tdiv (60 * 60 * 24))
  obtain ⟨_, civil, converted⟩ := Option.bind_eq_some_iff.mp converted
  by_cases small : toInt (time.tdiv (60 * 60 * 24)) ≤ 2146906431
  · obtain ⟨date, number, isCivil⟩ := civilFromDays_eq inside.1 small
    cases civil.symm.trans isCivil
    obtain ⟨_, isYear, converted⟩ := Option.bind_eq_some_iff.mp converted
    obtain ⟨_, rfl⟩ := checkInt_eq_some.mp isYear
    cases converted
    refine ⟨date, number ▸ inside, sub_add_cancel .., ?_, toInt_day date, rfl⟩
    rw [toInt_month, sub_add_cancel]
  · rw [civilFromDays_eq_none (not_le.mp small) inside.2] at civil
    cases civil

/-- The day of the year is right exactly in January and February and in leap years.  From the year 2
^ 30 on it wraps around. -/
theorem yearDay_computed_iff (date : Date) (low : 0 ≤ date.year) (high : date.year < 4294967296) :
    (yeardayFromDate date.year date.month date.day = yearDay date + 1 ↔
      date.month ≤ 2 ∨ IsLeapYear date.year ∧ date.year < 1073741824) ∧
    ∀ time tm, gmtimeR time = some tm ∨ (∃ tz, localtimeR tz time = some tm) →
      tm.year + 1900 = date.year → tm.mon + 1 = date.month → tm.mday = date.day →
      (tm.yday = yearDay date ↔ date.month ≤ 2 ∨ IsLeapYear date.year) := by
  refine ⟨yeardayFromDate_iff date low high, fun time tm converted isYear isMonth isDay => ?_⟩
  obtain ⟨other, inside, year, month, day, yday⟩ : ∃ date, InInt (dayNumber date) ∧
      tm.year + 1900 = date.year ∧ tm.mon + 1 = date.month ∧ tm.mday = date.day ∧
        tm.yday = (tmOf 0 date).yday := by
    obtain converted | ⟨tz, converted⟩ := converted
    · exact gmtimeR_date converted
    · obtain ⟨_, isGmtime, rfl⟩ := Option.map_eq_some_iff.mp converted
      exact (gmtimeR_date isGmtime :)
  obtain rfl : date = other :=
    Date.ext (isYear.symm.trans year) (isMonth.symm.trans month) (isDay.symm.trans day)
  rw [yday, yearDay_eq, yday_eq_iff 0 inside]
  simp only [low, true_and]

def leapDay : Date := ⟨2024, 2, 29, by decide, by decide, by decide, by decide⟩

theorem yearDay_computed_leapDay : yeardayFromDate 2024 2 29 = yearDay leapDay + 1 :=
  (yearDay_computed_iff leapDay (by decide) (by decide)).1.mpr (.inl (by decide))

/-- The first of March 2023 is the 60th day of its year, and not the 61st. -/
theorem yearDay_computed_march : yeardayFromDate 2023 3 1 = 61 ∧
    yearDay ⟨2023, 3, 1, by decide, by decide, by decide, by decide⟩ + 1 = 60 := by
  decide

/-! ### The number of the week -/

/-- The week belongs to the year of its Thursday, and is the first one with the first Thursday. -/
def IsIsoWeek (date : Date) (week : Int) : Prop :=
  ∃ thursday, dayNumber thursday = dayNumber date - (dayNumber date + 3) % 7 + 3 ∧
    week = yearDay thursday / 7 + 1

theorem daysBeforeYear_isLeap {tmYear year : Int} (isYear : tmYear + 1900 = year) :
    daysBeforeYear (year + 1) = daysBeforeYear year + if isLeap tmYear then 366 else 365 := by
  simp only [isLeap, daysBeforeYear, Bool.and_eq_true, Bool.or_eq_true, decide_eq_true_eq]
  split_ifs <;> omega

/-- The number of the week, from the weekday of the first of January. -/
theorem weekNum_eq {tm : Tm} {first : Int} (wday : tm.wday = (first + tm.yday) % 7)
    (low : 0 ≤ tm.yday) (high : tm.yday < if isLeap tm.year then 366 else 365)
    (least : tm.year = -2147483648 → first % 7 = 4) :
    weekNum tm = (
      let thursday := tm.yday - (first + tm.yday - 1) % 7 + 3
      if thursday < 0 then thursday + if isLeap (tm.year - 1) then 366 else 365
      else if (if isLeap tm.year then 366 else 365) ≤ thursday then 0
      else thursday) / 7 + 1 := by
  have jan1Wday : (tm.wday - tm.yday) % 7 = first % 7 := by omega
  have isoWday : (tm.wday - 1) % 7 = (first + tm.yday - 1) % 7 := by omega
  simp only [weekNum, jan1Wday, isoWday]
  rw [Int.tdiv_eq_ediv_of_nonneg (by omega)]
  have lookup : first % 7 = 4 ∨ isLeap (tm.year - 1) =
      isLeap (if tm.year = -2147483648 then 2147483647 - (400 - 1) else tm.year - 1) := by
    by_cases isLeast : tm.year = -2147483648
    · exact .inl (least isLeast)
    · exact .inr (congrArg _ (if_neg isLeast).symm)
  generalize isLeap (if tm.year = -2147483648 then _ else _) = found at *
  generalize isLeap (tm.year - 1) = leapBefore at *
  generalize isLeap tm.year = leap at *
  generalize tm.yday = yday at *
  obtain thursday | rfl := lookup
  all_goals cases leapBefore <;> cases leap <;>
      simp only [Bool.false_eq_true, if_false, if_true, and_true, and_false, or_false] at high ⊢ <;>
      split_ifs <;> omega

/-- The number that `strftime` prints for `%V` is the number of the week of the date. -/
theorem weekNum_isIsoWeek (tm : Tm) (date : Date) (year : tm.year + 1900 = date.year)
    (yday : tm.yday = yearDay date) (wday : tm.wday = (dayNumber date + 4) % 7) (week : Int) :
    IsIsoWeek date week ↔ Strftime.weekNum tm = week := by
  obtain ⟨thursday, isDay⟩ := exists_isDay (dayNumber date - (dayNumber date + 3) % 7 + 3)
  have near := isDay_iff.mp isDay
  have isWeek : IsIsoWeek date week ↔ week = yearDay thursday / 7 + 1 := by
    constructor
    · rintro ⟨other, otherNear, isWeek⟩
      rwa [dayNumber_injective (otherNear.trans near.symm)] at isWeek
    · exact fun isWeek => ⟨thursday, near, isWeek⟩
  have ⟨low, high⟩ := yearDay_bounds date
  have ⟨thursdayLow, thursdayHigh⟩ := yearDay_bounds thursday
  have next := daysBeforeYear_isLeap year
  have before := daysBeforeYear_isLeap (by omega : tm.year - 1 + 1900 = date.year - 1)
  have inYear : thursday.year = date.year ∨ thursday.year = date.year - 1 ∨
      thursday.year = date.year + 1 := by
    have sameWeek := near
    rw [dayNumber_eq, dayNumber_eq date] at sameWeek
    unfold daysBeforeYear at *
    omega
  have least : tm.year = -2147483648 → (daysBeforeYear date.year - 719158) % 7 = 4 := by
    intro isLeast
    rw [← year, isLeast]
    rfl
  rw [sub_add_cancel] at before
  rw [dayNumber_eq, dayNumber_eq date] at near
  rw [dayNumber_eq] at wday
  rw [isWeek, eq_comm, weekNum_eq (by omega) (by omega) (by omega) least, yday]
  dsimp only
  obtain same | old | later := inYear
  · rw [same] at near thursdayHigh
    split_ifs at next before ⊢ <;> omega
  · rw [old, sub_add_cancel] at thursdayHigh
    rw [old] at near
    split_ifs at next before ⊢ <;> omega
  · rw [later] at near
    split_ifs at next before ⊢ <;> omega

theorem weekNum_newYear : IsIsoWeek ⟨2021, 1, 1, by decide, by decide, by decide, by decide⟩ 53 :=
  (weekNum_isIsoWeek ⟨0, 0, 0, 1, 0, 121, 5, 0, 0, 0⟩ _ rfl (by decide) (by decide) 53).mpr
    (by decide)

end Mlibc.Time
