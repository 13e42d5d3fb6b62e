import Mlibc.Calendar
import Mlibc.TimeConversion

/-!
# The dates that the conversions compute

The years begin on the first of March and form eras of 400 years.
-/

namespace Mlibc.Time

open Calendar Option

def marchYear (date : Date) : Int := date.year - if date.month ≤ 2 then 1 else 0

def marchMonth (date : Date) : Int := if 2 < date.month then date.month - 3 else date.month + 9

def daysBeforeMarch (year : Int) : Int := 365 * year + year / 4 - year / 100 + year / 400

theorem daysBeforeMarch_eq (year : Int) : daysBeforeMarch year =
    daysBeforeYear year + if IsLeapYear year then 366 else 365 := by
  unfold daysBeforeMarch daysBeforeYear IsLeapYear
  split_ifs <;> omega

theorem dayNumber_eq_march (date : Date) :
    dayNumber date = daysBeforeMarch (marchYear date) + (153 * marchMonth date + 2) / 5 +
      (date.day - 1) - 719468 := by
  obtain ⟨year, month, day, low, high, _, _⟩ := date
  have thisYear := daysBeforeMarch_eq year
  have lastYear : daysBeforeMarch (year - 1) = daysBeforeYear year := rfl
  simp only [dayNumber, marchYear, marchMonth, daysBeforeMonth]
  by_cases leap : IsLeapYear year
  · rw [if_pos leap] at thisYear
    interval_cases month <;> simp [leap] <;> omega
  · rw [if_neg leap] at thisYear
    interval_cases month <;> simp [leap] <;> omega

def daysBeforeYearOfEra (yoe : Nat) : Nat := 365 * yoe + yoe / 4 - yoe / 100

def yearOfEra (doe : Nat) : Nat := (doe - doe / 1460 + doe / 36524 - doe / 146096) / 365

theorem yearOfEra_mono : Monotone yearOfEra := by
  apply monotone_nat_of_le_succ
  intro doe
  have fourYears : (doe + 1) / 1460 ≤ doe / 1460 + 1 := by omega
  have few : doe / 1460 ≤ doe := Nat.div_le_self doe 1460
  have centuries : doe / 36524 ≤ (doe + 1) / 36524 := Nat.div_le_div_right (Nat.le_succ doe)
  have nested : doe / 146096 = doe / 36524 / 4 := by rw [Nat.div_div_eq_div_mul]
  have nestedSucc : (doe + 1) / 146096 = (doe + 1) / 36524 / 4 := by
    rw [Nat.div_div_eq_div_mul]
  unfold yearOfEra
  apply Nat.div_le_div_right
  rw [nested, nestedSucc]
  generalize doe / 1460 = a at *
  generalize (doe + 1) / 1460 = b at *
  generalize doe / 36524 = c at *
  generalize (doe + 1) / 36524 = d at *
  omega

theorem yearOfEra_first : ∀ yoe < 400, yoe ≤ yearOfEra (daysBeforeYearOfEra yoe) := by
  decide +kernel

theorem yearOfEra_last : ∀ yoe < 399, yearOfEra (daysBeforeYearOfEra (yoe + 1) - 1) ≤ yoe := by
  decide +kernel

variable {doe : Nat}

theorem yearOfEra_spec (inEra : doe < 146097) :
    yearOfEra doe ≤ 399 ∧ daysBeforeYearOfEra (yearOfEra doe) ≤ doe ∧
      (yearOfEra doe < 399 → doe < daysBeforeYearOfEra (yearOfEra doe + 1)) := by
  have bounded : yearOfEra doe ≤ 399 :=
    (yearOfEra_mono (Nat.le_of_lt_succ inEra)).trans (by decide)
  refine ⟨bounded, ?_, ?_⟩
  · apply Nat.le_of_not_lt
    intro below
    cases year : yearOfEra doe with
    | zero =>
      rw [year] at below
      exact Nat.not_lt_zero _ below
    | succ yoe =>
      rw [year] at below bounded
      have old := yearOfEra_mono (Nat.le_sub_one_of_lt below)
      have last := yearOfEra_last yoe (by omega)
      omega
  · intro notLast
    apply Nat.lt_of_not_le
    intro above
    have later := yearOfEra_mono above
    have first := yearOfEra_first (yearOfEra doe + 1) (by omega)
    omega

theorem exists_date_of_march (year : Int) {doy : Int} (nonnegative : 0 ≤ doy)
    (inYear : doy ≤ 364 ∨ doy = 365 ∧ IsLeapYear (year + 1)) :
    ∃ date : Date, date.month = (5 * doy + 2) / 153 + (if (5 * doy + 2) / 153 < 10 then 3 else -9) ∧
      date.year = year + (if date.month ≤ 2 then 1 else 0) ∧
      date.day = doy - (153 * ((5 * doy + 2) / 153) + 2) / 5 + 1 ∧
      dayNumber date = daysBeforeMarch year + doy - 719468 := by
  generalize month : (5 * doy + 2) / 153 = mp
  have low : 0 ≤ mp := by omega
  have dayPos : 1 ≤ doy - (153 * mp + 2) / 5 + 1 := by omega
  have sameDay : doy = (153 * mp + 2) / 5 + (doy - (153 * mp + 2) / 5 + 1 - 1) := by omega
  by_cases sameYear : mp < 10
  · have dayLe : doy - (153 * mp + 2) / 5 + 1 ≤ daysInMonth year (mp + 3) := by
      unfold daysInMonth
      interval_cases mp <;> simp <;> omega
    have afterFebruary : ¬mp + 3 ≤ 2 := by omega
    refine ⟨⟨year, mp + 3, _, by omega, by omega, dayPos, dayLe⟩, ?_, ?_, rfl, ?_⟩
    · rw [if_pos sameYear]
    · simp [afterFebruary]
    rw [dayNumber_eq_march]
    simp only [marchYear, marchMonth, if_neg afterFebruary, if_pos (not_le.mp afterFebruary)]
    rw [sub_zero, Int.add_sub_cancel]
    omega
  have high : mp ≤ 11 := by omega
  have dayLe : doy - (153 * mp + 2) / 5 + 1 ≤ daysInMonth (year + 1) (mp - 9) := by
    unfold daysInMonth
    rcases inYear with short | ⟨long, leap⟩
    · interval_cases mp
      · simp
        omega
      · simp
        split_ifs <;> omega
    · interval_cases mp <;> simp [leap] <;> omega
  have beforeMarch : mp - 9 ≤ 2 := by omega
  refine ⟨⟨year + 1, mp - 9, _, by omega, by omega, dayPos, dayLe⟩, ?_, ?_, rfl, ?_⟩
  · rw [if_neg sameYear]
    rfl
  · simp [beforeMarch]
  rw [dayNumber_eq_march]
  simp only [marchYear, marchMonth, if_pos beforeMarch, if_neg (not_lt.mpr beforeMarch)]
  rw [Int.add_sub_cancel, sub_add_cancel]
  omega

theorem daysBeforeYearOfEra_succ (yoe : Nat) :
    daysBeforeYearOfEra (yoe + 1) = daysBeforeYearOfEra yoe +
      if (yoe + 1) % 4 = 0 ∧ (yoe + 1) % 100 ≠ 0 then 366 else 365 := by
  unfold daysBeforeYearOfEra
  split_ifs <;> omega

theorem yearOfEra_leap (inEra : doe < 146097) (era : Int) :
    (doe : Int) - daysBeforeYearOfEra (yearOfEra doe) ≤ 364 ∨
      (doe : Int) - daysBeforeYearOfEra (yearOfEra doe) = 365 ∧
        IsLeapYear (yearOfEra doe + era * 400 + 1) := by
  obtain ⟨bounded, first, last⟩ := yearOfEra_spec inEra
  generalize yearOfEra doe = yoe at *
  unfold IsLeapYear
  by_cases final : yoe < 399
  · rw [daysBeforeYearOfEra_succ] at last
    split_ifs at last <;> omega
  · obtain rfl : yoe = 399 := by omega
    have lastYear : daysBeforeYearOfEra 399 = 145731 := rfl
    omega

theorem daysBeforeMarch_era {yoe : Nat} (bounded : yoe ≤ 399) (era : Int) :
    daysBeforeMarch (yoe + era * 400) = era * 146097 + daysBeforeYearOfEra yoe := by
  unfold daysBeforeMarch daysBeforeYearOfEra
  omega

theorem toUnsigned_yearOfEra (inEra : doe < 146097) :
    toUnsigned ((doe : Int) - doe / 1460 + doe / 36524 - doe / 146096) / 365 = yearOfEra doe := by
  rw [toUnsigned_of_lt (by omega) (by omega)]
  unfold yearOfEra
  omega

theorem toUnsigned_daysBeforeYearOfEra {yoe : Nat} (bounded : yoe ≤ 399) :
    toUnsigned (365 * (yoe : Int) + yoe / 4 - yoe / 100) = daysBeforeYearOfEra yoe := by
  rw [toUnsigned_of_lt (by omega) (by omega)]
  unfold daysBeforeYearOfEra
  omega

theorem toUnsigned_month (date : Date) : toUnsigned date.month = date.month := by
  have low := date.month_pos
  have high := date.month_le
  exact toUnsigned_of_lt (by omega) (by omega)

theorem toUnsigned_day (date : Date) : toUnsigned date.day = date.day := by
  have low := date.day_pos
  have high := date.day_le.trans (daysInMonth_le _ _)
  exact toUnsigned_of_lt (by omega) (by omega)

theorem era_eq (time : Int) : (if 0 ≤ time then time else time - 146096).tdiv 146097 =
    time / 146097 :=
  tdiv_rounded_down time (by decide : (0 : Int) < 146097)

theorem civilFromDays_eq {days : Int} (low : -2147483648 ≤ days) (high : days ≤ 2146906431) :
    ∃ date, dayNumber date = days ∧
      civilFromDays days = some (date.year, date.month, date.day) := by
  have rounded := era_eq (days + 719468)
  generalize eraEq : (days + 719468) / 146097 = era at rounded
  obtain ⟨doe, doeEq⟩ : ∃ doe : Nat, days + 719468 - era * 146097 = doe :=
    Int.eq_ofNat_of_zero_le (by omega)
  have inEra : doe < 146097 := by omega
  have doeUnsigned : toUnsigned (doe : Int) = doe := toUnsigned_of_lt (by omega) (by omega)
  obtain ⟨bounded, first, _⟩ := yearOfEra_spec inEra
  have inYear := yearOfEra_leap inEra era
  have before := daysBeforeMarch_era bounded era
  have yearOfDay := toUnsigned_yearOfEra inEra
  have yearStart := toUnsigned_daysBeforeYearOfEra bounded
  generalize yearOfEra doe = yoe at *
  generalize doyEq : (doe : Int) - daysBeforeYearOfEra yoe = doy at *
  have doyUnsigned : toUnsigned doy = doy := toUnsigned_of_lt (by omega) (by omega)
  have monthOfDay : toUnsigned (5 * doy + 2) = 5 * doy + 2 := toUnsigned_of_lt (by omega) (by omega)
  have monthStart : toUnsigned (153 * ((5 * doy + 2) / 153) + 2) =
      153 * ((5 * doy + 2) / 153) + 2 := toUnsigned_of_lt (by omega) (by omega)
  obtain ⟨date, month, year, day, number⟩ :=
    exists_date_of_march (yoe + era * 400) (by omega : 0 ≤ doy) inYear
  have eraInside : InInt era := ⟨by omega, by omega⟩
  have daysInside : InInt (era * 146097) := ⟨by omega, by omega⟩
  have yearsInside : InInt (era * 400) := ⟨by omega, by omega⟩
  have yoeInside : InInt (yoe : Int) := ⟨by omega, by omega⟩
  have sumInside : InInt (yoe + era * 400) := ⟨by omega, by omega⟩
  have yearInside : InInt date.year := by
    rw [year]
    split_ifs
    · exact ⟨by omega, by omega⟩
    · exact ⟨by omega, by omega⟩
  refine ⟨date, by omega, ?_⟩
  simp only [civilFromDays, rounded, doeEq, doeUnsigned, yearOfDay, yearStart, doyEq, doyUnsigned,
    monthOfDay, monthStart, ← month, ← day, toUnsigned_month, toUnsigned_day,
    toInt_of_inInt eraInside, toInt_of_inInt yoeInside, checkInt_of_inInt daysInside,
    checkInt_of_inInt yearsInside, checkInt_of_inInt sumInside, ← year,
    checkInt_of_inInt yearInside, bind_eq_bind, bind_some]
  rfl

theorem civilFromDays_eq_none {days : Int} (low : 2146906431 < days) (high : days ≤ 2147483647) :
    civilFromDays days = none := by
  have rounded := era_eq (days + 719468)
  have era : (days + 719468) / 146097 = 14700 ∨ (days + 719468) / 146097 = 14701 ∨
      (days + 719468) / 146097 = 14702 ∨ (days + 719468) / 146097 = 14703 := by omega
  simp only [civilFromDays, rounded]
  rcases era with era | era | era | era <;> rw [era] <;> rfl

theorem marchMonth_bounds (date : Date) : 0 ≤ marchMonth date ∧ marchMonth date ≤ 11 := by
  have low := date.month_pos
  have high := date.month_le
  unfold marchMonth
  split_ifs <;> omega

theorem toInt_toUnsigned (value : Int) : toInt (toUnsigned value) = toInt value := by
  unfold toInt toUnsigned
  omega

theorem toUnsigned_add_toUnsigned (first second : Int) :
    toUnsigned (first + toUnsigned second) = toUnsigned (first + second) := by
  unfold toUnsigned
  omega

theorem yearOfEra_days (y : Int) :
    (y - y / 400 * 400) * 365 + (y - y / 400 * 400) / 4 - (y - y / 400 * 400) / 100 =
      daysBeforeMarch y - y / 400 * 146097 := by
  unfold daysBeforeMarch
  omega

theorem daysFromCivil_some {year m d y mp : Int} (isYear : year - (if m ≤ 2 then 1 else 0) = y)
    (isMonth : (if 2 < m then m - 3 else m + 9) = mp) (eraDays : InInt (y / 400 * 146097)) :
    daysFromCivil year m d =
      (checkInt (y / 400 * 146097 + toInt (daysBeforeMarch y - y / 400 * 146097 +
        (toUnsigned (153 * mp + 2) / 5 + d - 1)))).bind fun days => checkInt (days - 719468) := by
  have ⟨low, high⟩ := eraDays
  have rounded : (if 0 ≤ y then y else y - 399).tdiv 400 = y / 400 :=
    tdiv_rounded_down y (by decide : (0 : Int) < 400)
  have shifted : (if 0 ≤ y then some y else checkInt (y - 399)) =
      some (if 0 ≤ y then y else y - 399) := by
    split_ifs
    · rfl
    · exact checkInt_of_inInt ⟨by omega, by omega⟩
  have yearInside : InInt y := ⟨by omega, by omega⟩
  have yearsInside : InInt (y / 400 * 400) := ⟨by omega, by omega⟩
  have yoeInside : InInt (y - y / 400 * 400) := ⟨by omega, by omega⟩
  have yoeUnsigned : toUnsigned (y - y / 400 * 400) = y - y / 400 * 400 :=
    toUnsigned_of_lt (by omega) (by omega)
  simp only [daysFromCivil, isYear, isMonth, checkInt_of_inInt yearInside, shifted, rounded,
    checkInt_of_inInt yearsInside, checkInt_of_inInt yoeInside, yoeUnsigned, yearOfEra_days,
    toUnsigned_add_toUnsigned, toInt_toUnsigned, checkInt_of_inInt eraDays, bind_eq_bind,
    bind_some]

theorem inInt_eraDays {year m d y value : Int} (isYear : year - (if m ≤ 2 then 1 else 0) = y)
    (result : daysFromCivil year m d = some value) : InInt (y / 400 * 146097) := by
  have rounded : (if 0 ≤ y then y else y - 399).tdiv 400 = y / 400 :=
    tdiv_rounded_down y (by decide : (0 : Int) < 400)
  unfold daysFromCivil at result
  rw [isYear] at result
  obtain ⟨sameYear, year, result⟩ := bind_eq_some_iff.mp result
  obtain ⟨_, rfl⟩ := checkInt_eq_some.mp year
  obtain ⟨shifted, isShifted, result⟩ := bind_eq_some_iff.mp result
  have era : shifted.tdiv 400 = y / 400 := by
    rw [← rounded]
    split_ifs at isShifted ⊢
    · cases isShifted
      rfl
    · obtain ⟨_, rfl⟩ := checkInt_eq_some.mp isShifted
      rfl
  rw [era] at result
  obtain ⟨_, _, result⟩ := bind_eq_some_iff.mp result
  obtain ⟨_, _, result⟩ := bind_eq_some_iff.mp result
  obtain ⟨_, eraDays, _⟩ := bind_eq_some_iff.mp result
  exact (checkInt_eq_some.mp eraDays).1

theorem toInt_add_toUnsigned (first second : Int) :
    toInt (first + toUnsigned second) = toInt (first + second) := by
  unfold toInt toUnsigned
  omega

theorem daysFromCivil_bind {date : Date} {year m mday : Int}
    (isYear : year - (if m ≤ 2 then 1 else 0) = marchYear date)
    (isMonth : (if 2 < m then m - 3 else m + 9) = marchMonth date)
    (eraDays : InInt (marchYear date / 400 * 146097))
    (dayOfEra : InInt (daysBeforeMarch (marchYear date) - marchYear date / 400 * 146097 +
      ((153 * marchMonth date + 2) / 5 + mday - 1))) :
    daysFromCivil year m (toUnsigned mday) =
      (checkInt (dayNumber date + (mday - date.day) + 719468)).bind fun days =>
        checkInt (days - 719468) := by
  have number := dayNumber_eq_march date
  have ⟨monthLow, monthHigh⟩ := marchMonth_bounds date
  rw [daysFromCivil_some isYear isMonth eraDays]
  generalize marchYear date = y at *
  generalize marchMonth date = mp at *
  have before : toUnsigned (153 * mp + 2) = 153 * mp + 2 := toUnsigned_of_lt (by omega) (by omega)
  have regroup : daysBeforeMarch y - y / 400 * 146097 + ((153 * mp + 2) / 5 + toUnsigned mday - 1) =
        daysBeforeMarch y - y / 400 * 146097 + (153 * mp + 2) / 5 - 1 + toUnsigned mday := by
    omega
  have exact : daysBeforeMarch y - y / 400 * 146097 + (153 * mp + 2) / 5 - 1 + mday =
      daysBeforeMarch y - y / 400 * 146097 + ((153 * mp + 2) / 5 + mday - 1) := by
    omega
  have sum : y / 400 * 146097 +
      (daysBeforeMarch y - y / 400 * 146097 + ((153 * mp + 2) / 5 + mday - 1)) =
        dayNumber date + (mday - date.day) + 719468 := by
    omega
  rw [before, regroup, toInt_add_toUnsigned, exact, toInt_of_inInt dayOfEra, sum]

theorem daysFromCivil_eq (date : Date) (inside : InInt (dayNumber date)) :
    daysFromCivil date.year date.month date.day =
      if dayNumber date ≤ 2146764179 then some (dayNumber date) else none := by
  have ⟨monthLow, monthHigh⟩ := marchMonth_bounds date
  have dayPos := date.day_pos
  have dayLe := date.day_le.trans (daysInMonth_le _ _)
  have ⟨low, high⟩ := inside
  have number := dayNumber_eq_march date
  have start : 0 ≤ daysBeforeMarch (marchYear date) - marchYear date / 400 * 146097 ∧
      daysBeforeMarch (marchYear date) - marchYear date / 400 * 146097 ≤ 145731 := by
    unfold daysBeforeMarch
    omega
  by_cases eraDays : InInt (marchYear date / 400 * 146097)
  · have civil := @daysFromCivil_bind date _ _ date.day rfl rfl eraDays ⟨by omega, by omega⟩
    rw [toUnsigned_day, sub_self, add_zero] at civil
    rw [civil]
    split_ifs with fits
    · rw [checkInt_of_inInt ⟨by omega, by omega⟩, bind_some, Int.add_sub_cancel,
        checkInt_of_inInt inside]
    · have outside : ¬InInt (dayNumber date + 719468) := by
        unfold InInt
        omega
      rw [checkInt, if_neg outside, bind_none]
  · have large : ¬dayNumber date ≤ 2146764179 := by
      unfold InInt at eraDays
      omega
    rw [if_neg large, eq_none_iff_forall_ne_some]
    intro value result
    exact eraDays (inInt_eraDays rfl result)

end Mlibc.Time
