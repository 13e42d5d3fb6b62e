import Mlibc.TimeCarry
import Mlibc.TimeFields

/-!
# The days of the rules for daylight saving

`time_from_rule` relies on `mktime` to use the day of the year and to write the weekday back.
-/

namespace Mlibc.Time

open Calendar

inductive RuleType where
  | tzfile
  | julianDay
  | dayOfYear
  | monthNthDayOfWeek
  deriving DecidableEq

/-- A rule of a time zone for the begin or the end of daylight saving. -/
structure Rule where
  type : RuleType
  day : Int
  week : Int
  month : Int

/-- `struct tm t = {}`. -/
def Tm.zero : Tm := ⟨0, 0, 0, 0, 0, 0, 0, 0, 0, 0⟩

/-- `time_from_rule`.  A rule of another type fails the `__ensure`. -/
def timeFromRule (rule : Rule) (year : Int) : Option Int :=
  match rule.type with
  | .julianDay =>
    let day := if IsLeapYear year ∧ 60 ≤ rule.day - 1 then rule.day else rule.day - 1
    (mktime { Tm.zero with year := year - 1900, yday := day }).1
  | .dayOfYear => (mktime { Tm.zero with year := year - 1900, yday := rule.day }).1
  | .monthNthDayOfWeek =>
    let t := (mktime { Tm.zero with year := year - 1900, mon := rule.month - 1, mday := 1 }).2
    let day := 1 + (7 + rule.day - t.wday).tmod 7 + (rule.week - 1) * 7
    let t := (mktime { t with mday := day }).2
    let day := if rule.week = 5 ∧ t.mon ≠ rule.month - 1 then day - 7 else day
    (mktime { t with
      year := year - 1900, mon := rule.month - 1, mday := day, hour := 0, min := 0, sec := 0 }).1
  | .tzfile => none

namespace Rule

def Valid (rule : Rule) : Prop :=
  match rule.type with
  | .julianDay => 1 ≤ rule.day ∧ rule.day ≤ 365
  | .dayOfYear => 0 ≤ rule.day ∧ rule.day ≤ 365
  | .monthNthDayOfWeek => (0 ≤ rule.day ∧ rule.day ≤ 6) ∧ (1 ≤ rule.week ∧ rule.week ≤ 5) ∧
      1 ≤ rule.month ∧ rule.month ≤ 12
  | .tzfile => False

/-- The rule denotes the date in its year; the fifth week is the last one. -/
def Denotes (rule : Rule) (date : Date) : Prop :=
  match rule.type with
  | .julianDay =>
    yearDay date = rule.day - 1 + if IsLeapYear date.year ∧ 60 ≤ rule.day then 1 else 0
  | .dayOfYear => yearDay date = rule.day
  | .monthNthDayOfWeek => date.month = rule.month ∧ (dayNumber date + 4) % 7 = rule.day ∧
      if rule.week = 5 then daysInMonth date.year date.month < date.day + 7
      else (date.day - 1) / 7 = rule.week - 1
  | .tzfile => False

def IsExact (rule : Rule) (year : Int) : Prop :=
  ∃ date, date.year = year ∧ rule.Denotes date ∧
    timeFromRule rule year = some (dayNumber date * 86400)

end Rule

theorem dayNumber_firstOfMonth (year : Int) {mon : Int} (low : 0 ≤ mon) (high : mon < 12) :
    dayNumber (firstOfMonth year mon) =
      daysBeforeYear year + daysBeforeMonth year (mon + 1) - 719162 := by
  have sameYear : year + mon / 12 = year := by omega
  have sameMonth : mon % 12 = mon := by omega
  simp only [dayNumber, firstOfMonth, sameYear, sameMonth]
  omega

theorem timegm_date {year mon mday : Int} (low : 1970 ≤ year) (high : year ≤ 9999)
    (monLow : 0 ≤ mon) (monHigh : mon < 12) (mdayLow : 0 ≤ mday) (mdayHigh : mday ≤ 35)
    (yday : Int) :
    timegm ⟨0, 0, 0, mday, mon, year - 1900, 0, yday, 0, 0⟩ =
      some ((dayNumber (firstOfMonth year mon) + (mday - 1)) * 86400) := by
  have bounds := marchMonth_bounds (firstOfMonth year mon)
  have first : (firstOfMonth year mon).day = 1 := rfl
  have number := dayNumber_eq_march (firstOfMonth year mon)
  have march := marchYear_firstOfMonth year mon
  have fits : Fits ⟨0, 0, 0, mday, mon, year - 1900, 0, yday, 0, 0⟩ := by
    constructor <;> simp only [InInt, sub_add_cancel]
    all_goals
      unfold daysBeforeMarch at *
      omega
  rw [(timegm_carried_iff fits).mpr (by dsimp only; omega), carriedSeconds_eq]
  simp

/-- Without a day of the month, the time is that of the last day of the year before. -/
theorem not_exact_of_yearDay {date : Date} (low : 1970 ≤ date.year) (high : date.year ≤ 9999)
    (yday : Int) :
    timegm ⟨0, 0, 0, 0, 0, date.year - 1900, 0, yday, 0, 0⟩ ≠ some (dayNumber date * 86400) := by
  have ⟨pos, _⟩ := yearDay_bounds date
  have january : daysBeforeMonth date.year (0 + 1) = 0 := rfl
  rw [timegm_date low high (by decide) (by decide) (by decide) (by decide),
    dayNumber_firstOfMonth _ (by decide) (by decide), dayNumber_eq]
  intro same
  have := Option.some.inj same
  omega

/-- The time of a rule is right only for the weekdays of the months that begin on a Sunday, if the
month has as many weeks. -/
theorem timeFromRule_exact_iff (rule : Rule) (valid : rule.Valid) {year : Int} (low : 1970 ≤ year)
    (high : year ≤ 9999) :
    rule.IsExact year ↔ rule.type = .monthNthDayOfWeek ∧
      (dayNumber (firstOfMonth year (rule.month - 1)) + 4) % 7 = 0 ∧
      1 + rule.day + (rule.week - 1) * 7 ≤ daysInMonth year rule.month := by
  obtain ⟨type, day, week, month⟩ := rule
  cases type with
  | tzfile => exact valid.elim
  | julianDay | dayOfYear =>
    refine iff_of_false ?_ (fun exact => by cases exact.1)
    rintro ⟨date, rfl, _, time⟩
    exact not_exact_of_yearDay low high _ time
  | monthNthDayOfWeek =>
    simp only [Rule.Valid] at valid
    have weekday : (7 + day - 0).tmod 7 = day := by
      rw [Int.tmod_eq_emod_of_nonneg (by omega)]
      omega
    have time : timeFromRule ⟨.monthNthDayOfWeek, day, week, month⟩ year =
        some ((dayNumber (firstOfMonth year (month - 1)) + (day + (week - 1) * 7)) * 86400) := by
      simp only [timeFromRule, mktime, Tm.zero]
      rw [timegm_date low high (by omega) (by omega) (by omega) (by omega)]
      apply congrArg some
      omega
    have first := dayNumber_firstOfMonth year (by omega : 0 ≤ month - 1) (by omega)
    rw [sub_add_cancel] at first
    simp only [Rule.IsExact, time, true_and, Option.some.injEq]
    constructor
    · rintro ⟨date, rfl, ⟨rfl, isWeekday, _⟩, same⟩
      have inMonth := date.day_le
      simp only [dayNumber] at *
      omega
    · rintro ⟨sunday, fits⟩
      refine ⟨⟨year, month, 1 + day + (week - 1) * 7, valid.2.2.1, valid.2.2.2, by omega, fits⟩,
        rfl, ⟨rfl, ?_, ?_⟩, ?_⟩
      · simp only [dayNumber] at *
        omega
      · have length := daysInMonth_le year month
        dsimp only
        split_ifs <;> omega
      · simp only [dayNumber] at *
        omega

theorem timeFromRule_exact_september :
    (⟨.monthNthDayOfWeek, 0, 1, 9⟩ : Rule).IsExact 2024 :=
  (timeFromRule_exact_iff ⟨.monthNthDayOfWeek, 0, 1, 9⟩ ⟨by decide, by decide, by decide⟩
    (by decide) (by decide)).mpr ⟨rfl, by decide, by decide⟩

/-- The second Sunday of March 2024 is the 10th, and the time is that of the 8th. -/
theorem timeFromRule_not_exact : ¬(⟨.monthNthDayOfWeek, 0, 2, 3⟩ : Rule).IsExact 2024 := by
  rintro ⟨date, _, ⟨_, weekday, _⟩, time⟩
  have computed : timeFromRule ⟨.monthNthDayOfWeek, 0, 2, 3⟩ 2024 = some 1709856000 := by decide
  rw [computed] at time
  have number := Option.some.inj time
  dsimp only at weekday
  omega

end Mlibc.Time
