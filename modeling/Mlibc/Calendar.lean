import Mathlib.Tactic.IntervalCases

/-! # The proleptic Gregorian calendar -/

namespace Mlibc.Calendar

def IsLeapYear (year : Int) : Prop := year % 4 = 0 ∧ (year % 100 ≠ 0 ∨ year % 400 = 0)

instance (year : Int) : Decidable (IsLeapYear year) := inferInstanceAs (Decidable (_ ∧ _))

def daysInMonth (year month : Int) : Int :=
  if month = 2 then if IsLeapYear year then 29 else 28
  else if month = 4 ∨ month = 6 ∨ month = 9 ∨ month = 11 then 30
  else 31

/-- A day of the calendar. -/
@[ext]
structure Date where
  year : Int
  month : Int
  day : Int
  month_pos : 1 ≤ month
  month_le : month ≤ 12
  day_pos : 1 ≤ day
  day_le : day ≤ daysInMonth year month

theorem daysInMonth_pos (year month : Int) : 1 ≤ daysInMonth year month := by
  unfold daysInMonth
  split_ifs <;> decide

theorem daysInMonth_le (year month : Int) : daysInMonth year month ≤ 31 := by
  unfold daysInMonth
  split_ifs <;> decide

def daysBeforeMonth (year month : Int) : Int :=
  if month ≤ 1 then 0
  else (367 * month - 362) / 12 - if month ≤ 2 then 0 else if IsLeapYear year then 1 else 2

def daysBeforeYear (year : Int) : Int :=
  365 * (year - 1) + (year - 1) / 4 - (year - 1) / 100 + (year - 1) / 400

def dayNumber (date : Date) : Int :=
  daysBeforeYear date.year + daysBeforeMonth date.year date.month + (date.day - 1) - 719162

def newYear (year : Int) : Date :=
  ⟨year, 1, 1, by decide, by decide, by decide, daysInMonth_pos _ _⟩

def Date.next (date : Date) : Date :=
  if notLast : date.day < daysInMonth date.year date.month then
    { date with
      day := date.day + 1
      day_pos := by
        have := date.day_pos
        omega
      day_le := notLast }
  else if inYear : date.month < 12 then
    { date with
      month := date.month + 1
      day := 1
      month_pos := by
        have := date.month_pos
        omega
      month_le := inYear
      day_pos := by decide
      day_le := daysInMonth_pos _ _ }
  else
    newYear (date.year + 1)

def epoch : Date := ⟨1970, 1, 1, by decide, by decide, by decide, by decide⟩

theorem daysBeforeMonth_succ (year : Int) {month : Int} (low : 1 ≤ month) (high : month < 12) :
    daysBeforeMonth year (month + 1) = daysBeforeMonth year month + daysInMonth year month := by
  by_cases leap : IsLeapYear year
  · interval_cases month <;> simp [daysBeforeMonth, daysInMonth, leap]
  · interval_cases month <;> simp [daysBeforeMonth, daysInMonth, leap]

theorem daysBeforeYear_succ (year : Int) :
    daysBeforeYear (year + 1) = daysBeforeYear year + daysBeforeMonth year 12 + 31 := by
  simp only [daysBeforeMonth, daysBeforeYear, IsLeapYear]
  split_ifs <;> omega

theorem dayNumber_next (date : Date) : dayNumber date.next = dayNumber date + 1 := by
  have low := date.month_pos
  have high := date.month_le
  have dayLe := date.day_le
  unfold Date.next
  split_ifs with notLast inYear
  · simp only [dayNumber]
    omega
  · have before := daysBeforeMonth_succ date.year low inYear
    simp only [dayNumber]
    omega
  have december : date.month = 12 := by omega
  have lastDay : date.day = 31 := by
    rw [december] at notLast dayLe
    have : daysInMonth date.year 12 = 31 := by simp [daysInMonth]
    omega
  simp only [dayNumber, newYear, daysBeforeYear_succ]
  simp [daysBeforeMonth]
  omega

theorem dayNumber_epoch : dayNumber epoch = 0 := by
  decide

/-- The date has this number, going from day to day from the epoch. -/
inductive IsDay : Int → Date → Prop where
  | epoch : IsDay 0 epoch
  | next {number : Int} {date : Date} : IsDay number date → IsDay (number + 1) date.next
  | back {number : Int} {date : Date} : IsDay (number + 1) date.next → IsDay number date

variable {date : Date}

theorem IsDay.dayNumber_eq {number : Int} (isDay : IsDay number date) :
    dayNumber date = number := by
  induction isDay with
  | epoch => exact dayNumber_epoch
  | next _ ih => rw [dayNumber_next, ih]
  | back _ ih =>
    rw [dayNumber_next] at ih
    omega

theorem exists_next_eq (date : Date) : ∃ before : Date, before.next = date := by
  have low := date.month_pos
  have high := date.month_le
  have dayPos := date.day_pos
  have dayLe := date.day_le
  by_cases first : date.day = 1
  · by_cases january : date.month = 1
    · refine ⟨⟨date.year - 1, 12, 31, by decide, by decide, by decide, ?_⟩, ?_⟩
      · simp [daysInMonth]
      · ext <;> simp [Date.next, newYear, daysInMonth, first, january]
    have length := daysInMonth_pos date.year (date.month - 1)
    refine ⟨⟨date.year, date.month - 1, daysInMonth date.year (date.month - 1), by omega,
      by omega, length, le_rfl⟩, ?_⟩
    have inYear : date.month - 1 < 12 := by omega
    ext <;> simp [Date.next, inYear, first]
  · refine ⟨⟨date.year, date.month, date.day - 1, low, high, by omega, by omega⟩, ?_⟩
    have notLast : date.day - 1 < daysInMonth date.year date.month := by omega
    ext <;> simp [Date.next, notLast]

theorem exists_isDay (number : Int) : ∃ date, IsDay number date := by
  induction number with
  | zero => exact ⟨epoch, IsDay.epoch⟩
  | succ number ih =>
    obtain ⟨date, isDay⟩ := ih
    exact ⟨date.next, isDay.next⟩
  | pred number ih =>
    obtain ⟨date, isDay⟩ := ih
    obtain ⟨before, rfl⟩ := exists_next_eq date
    refine ⟨before, IsDay.back ?_⟩
    rw [sub_add_cancel]
    exact isDay

theorem daysBeforeYear_mono {year other : Int} (below : year ≤ other) :
    daysBeforeYear year ≤ daysBeforeYear other := by
  unfold daysBeforeYear
  omega

theorem daysBeforeMonth_nonneg (year : Int) {month : Int} (low : 1 ≤ month) (high : month ≤ 12) :
    0 ≤ daysBeforeMonth year month := by
  unfold daysBeforeMonth
  split_ifs <;> omega

theorem daysBeforeMonth_mono (year : Int) {month other : Int} (low : 1 ≤ month)
    (below : month ≤ other) (high : other ≤ 12) :
    daysBeforeMonth year month ≤ daysBeforeMonth year other := by
  unfold daysBeforeMonth
  split_ifs <;> omega

theorem daysBeforeMonth_add_day_le (date : Date) :
    daysBeforeMonth date.year date.month + date.day ≤ daysBeforeMonth date.year 12 + 31 := by
  have low := date.month_pos
  have high := date.month_le
  have dayLe := date.day_le
  by_cases december : date.month = 12
  · rw [december] at dayLe ⊢
    have : daysInMonth date.year 12 = 31 := by simp [daysInMonth]
    omega
  have inYear : date.month < 12 := by omega
  have before := daysBeforeMonth_succ date.year low inYear
  have mono := daysBeforeMonth_mono date.year (by omega : 1 ≤ date.month + 1)
    (by omega : date.month + 1 ≤ 12) le_rfl
  omega

theorem dayNumber_lt_of_year_lt {other : Date} (old : date.year < other.year) :
    dayNumber date < dayNumber other := by
  have years := daysBeforeYear_mono (Int.add_one_le_of_lt old)
  have inYear := daysBeforeMonth_add_day_le date
  have months := daysBeforeMonth_nonneg other.year other.month_pos other.month_le
  have dayPos := other.day_pos
  rw [daysBeforeYear_succ] at years
  unfold dayNumber
  omega

theorem dayNumber_lt_of_month_lt {other : Date} (sameYear : date.year = other.year)
    (old : date.month < other.month) : dayNumber date < dayNumber other := by
  have low := date.month_pos
  have high := other.month_le
  have dayLe := date.day_le
  have dayPos := other.day_pos
  have before := daysBeforeMonth_succ date.year low (by omega)
  have mono := daysBeforeMonth_mono date.year (by omega) (Int.add_one_le_of_lt old) high
  unfold dayNumber
  rw [← sameYear]
  omega

theorem dayNumber_injective {other : Date} (same : dayNumber date = dayNumber other) :
    date = other := by
  have sameYear : date.year = other.year := by
    rcases Int.lt_trichotomy date.year other.year with old | equal | later
    · exact absurd same (Int.ne_of_lt (dayNumber_lt_of_year_lt old))
    · exact equal
    · exact absurd same (Int.ne_of_gt (dayNumber_lt_of_year_lt later))
  have sameMonth : date.month = other.month := by
    rcases Int.lt_trichotomy date.month other.month with old | equal | later
    · exact absurd same (Int.ne_of_lt (dayNumber_lt_of_month_lt sameYear old))
    · exact equal
    · exact absurd same (Int.ne_of_gt (dayNumber_lt_of_month_lt sameYear.symm later))
  ext
  · exact sameYear
  · exact sameMonth
  · simp only [dayNumber, sameYear, sameMonth] at same
    omega

theorem isDay_iff {number : Int} : IsDay number date ↔ dayNumber date = number := by
  constructor
  · exact IsDay.dayNumber_eq
  intro counted
  obtain ⟨other, isDay⟩ := exists_isDay number
  have same : date = other := dayNumber_injective (counted.trans isDay.dayNumber_eq.symm)
  rw [same]
  exact isDay

end Mlibc.Calendar
