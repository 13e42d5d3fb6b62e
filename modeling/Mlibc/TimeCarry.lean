import Mlibc.TimeRoundTrip
import Mlibc.TimeZone

/-! # Dates with fields out of range -/

namespace Mlibc.Time

open Calendar Option

def firstOfMonth (year mon : Int) : Date where
  year := year + mon / 12
  month := mon % 12 + 1
  day := 1
  month_pos := by omega
  month_le := by omega
  day_pos := Int.one_pos
  day_le := daysInMonth_pos _ _

/-- The seconds of the date that is obtained by carrying the excess of each field into the
next. -/
def carriedSeconds (tm : Tm) : Int :=
  let minutes := tm.min + tm.sec / 60
  let hours := tm.hour + minutes / 60
  let days := tm.mday + hours / 24
  (dayNumber (firstOfMonth (tm.year + 1900) tm.mon) + (days - 1)) * 86400 +
    hours % 24 * 3600 + minutes % 60 * 60 + tm.sec % 60

theorem carriedSeconds_eq (tm : Tm) :
    carriedSeconds tm = (dayNumber (firstOfMonth (tm.year + 1900) tm.mon) + (tm.mday - 1)) * 86400 +
        tm.hour * 3600 + tm.min * 60 + tm.sec := by
  simp only [carriedSeconds]
  omega

theorem daysBeforeMarch_add (year : Int) (count : Nat) :
    365 * (count : Int) ≤ daysBeforeMarch (year + count) - daysBeforeMarch year ∧
      daysBeforeMarch (year + count) - daysBeforeMarch year ≤ 366 * (count : Int) := by
  induction count with
  | zero => simp
  | succ count ih =>
    have step : 365 ≤ daysBeforeMarch (year + count + 1) - daysBeforeMarch (year + count) ∧
        daysBeforeMarch (year + count + 1) - daysBeforeMarch (year + count) ≤ 366 := by
      unfold daysBeforeMarch
      omega
    rw [Nat.cast_succ, ← add_assoc]
    omega

theorem daysBeforeMarch_between (year years : Int) :
    (0 ≤ years → 365 * years ≤ daysBeforeMarch (year + years) - daysBeforeMarch year ∧
      daysBeforeMarch (year + years) - daysBeforeMarch year ≤ 366 * years) ∧
    (years ≤ 0 → 366 * years ≤ daysBeforeMarch (year + years) - daysBeforeMarch year ∧
      daysBeforeMarch (year + years) - daysBeforeMarch year ≤ 365 * years) := by
  constructor
  · intro later
    obtain ⟨count, rfl⟩ := Int.eq_ofNat_of_zero_le later
    exact daysBeforeMarch_add year count
  intro old
  obtain ⟨count, isCount⟩ := Int.eq_ofNat_of_zero_le (Int.neg_nonneg_of_nonpos old)
  have between := daysBeforeMarch_add (year + years) count
  have back : year + years + count = year := by omega
  rw [back] at between
  omega

theorem eq_zero_of_multiple (difference : Int) {count : Int} (near : difference < 4294967290)
    (above : -4294967290 < difference) (low : 4294967296 * count - 2 ≤ difference)
    (high : difference ≤ 4294967296 * count + 2) : count = 0 := by
  omega

theorem far_month_mismatch {month start mday years length : Int}
    (far : month < -3 ∨ 11 < month) (startLow : 0 ≤ start) (startHigh : start ≤ 145731)
    (inside : InInt mday) (isYears : years = month / 12)
    (between : (0 ≤ years → 365 * years ≤ length ∧ length ≤ 366 * years) ∧
      (years ≤ 0 → 366 * years ≤ length ∧ length ≤ 365 * years)) :
    toInt (start + ((toUnsigned (153 * month + 2)) / 5 + mday - 1)) ≠
      start + (length + (153 * (month % 12) + 2) / 5 + (mday - 1)) := by
  intro same
  have result := inInt_toInt (start + ((toUnsigned (153 * month + 2)) / 5 + mday - 1))
  rw [same] at result
  unfold InInt at inside result
  have inYear : 0 ≤ (153 * (month % 12) + 2) / 5 ∧ (153 * (month % 12) + 2) / 5 ≤ 337 := by omega
  have yearsLow : -12000000 ≤ years := by omega
  have yearsHigh : years ≤ 12000000 := by omega
  have split : month = 12 * years + month % 12 := by omega
  generalize monthOfYear : month % 12 = rest at *
  have restBounds : 0 ≤ rest ∧ rest ≤ 11 := by omega
  generalize beforeMonth : (153 * rest + 2) / 5 = before at *
  unfold toInt toUnsigned at same
  generalize turns : (153 * month + 2) / 4294967296 = k at *
  have kept : (153 * month + 2) % 4294967296 = 153 * month + 2 - 4294967296 * k := by omega
  rw [kept] at same
  generalize quotient : (153 * month + 2 - 4294967296 * k) / 5 = fifth at *
  generalize wrapped : (start + (fifth + mday - 1) + 2147483648) / 4294967296 = w at *
  have congruent : fifth - 4294967296 * w = length + before := by omega
  have count : 5 * w + k = 0 := by
    apply eq_zero_of_multiple (153 * month - 5 * (length + before))
    all_goals omega
  omega

section Civil

theorem marchYear_firstOfMonth (year mon : Int) :
    marchYear (firstOfMonth year mon) = year + (mon - 2) / 12 := by
  simp only [marchYear, firstOfMonth]
  split_ifs <;> omega

theorem marchMonth_firstOfMonth (year mon : Int) :
    marchMonth (firstOfMonth year mon) = (mon - 2) % 12 := by
  simp only [marchMonth, firstOfMonth]
  split_ifs <;> omega

end Civil

section Timegm

variable {tm : Tm}

/-- The values on the way to the seconds of a date are values of `int`. -/
structure Fits (tm : Tm) : Prop where
  mday : InInt tm.mday
  year : InInt (tm.year + 1900)
  month : InInt (tm.mon + 1)
  hours : InInt (tm.hour * 60 * 60)
  minutes : InInt (tm.min * 60)
  eraDays : InInt (marchYear (firstOfMonth (tm.year + 1900) tm.mon) / 400 * 146097)
  dayOfEra : InInt (daysBeforeMarch (marchYear (firstOfMonth (tm.year + 1900) tm.mon)) -
    marchYear (firstOfMonth (tm.year + 1900) tm.mon) / 400 * 146097 +
    ((153 * marchMonth (firstOfMonth (tm.year + 1900) tm.mon) + 2) / 5 + tm.mday - 1))
  days : InInt (dayNumber (firstOfMonth (tm.year + 1900) tm.mon) + (tm.mday - 1) + 719468)
  number : InInt (dayNumber (firstOfMonth (tm.year + 1900) tm.mon) + (tm.mday - 1))

theorem timegm_eq_bind (fits : Fits tm) :
    timegm tm = (daysFromCivil (tm.year + 1900) (toUnsigned (tm.mon + 1)) (toUnsigned tm.mday)).map
        fun days => days * 86400 + tm.hour * 3600 + tm.min * 60 + tm.sec := by
  obtain ⟨_, year, month, hours, minutes, _, _, _, _⟩ := fits
  have hourMinutes : InInt (tm.hour * 60) := by
    unfold InInt at hours ⊢
    omega
  have seconds : tm.hour * 60 * 60 = tm.hour * 3600 := by omega
  rw [seconds] at hours
  simp only [timegm, checkInt_of_inInt year, checkInt_of_inInt month,
    checkInt_of_inInt hourMinutes, checkInt_of_inInt hours, checkInt_of_inInt minutes,
    bind_eq_bind, bind_some, seconds]
  cases daysFromCivil (tm.year + 1900) (toUnsigned (tm.mon + 1)) (toUnsigned tm.mday) with
  | none => rfl
  | some days => rfl

theorem daysFromCivil_near (fits : Fits tm) (low : -1 ≤ tm.mon) (high : tm.mon ≤ 13) :
    daysFromCivil (tm.year + 1900) (toUnsigned (tm.mon + 1)) (toUnsigned tm.mday) =
      some (dayNumber (firstOfMonth (tm.year + 1900) tm.mon) + (tm.mday - 1)) := by
  have month : toUnsigned (tm.mon + 1) = tm.mon + 1 := toUnsigned_of_lt (by omega) (by omega)
  have isYear : tm.year + 1900 - (if tm.mon + 1 ≤ 2 then 1 else 0) =
      marchYear (firstOfMonth (tm.year + 1900) tm.mon) := by
    rw [marchYear_firstOfMonth]
    split_ifs <;> omega
  have isMonth : (if 2 < tm.mon + 1 then tm.mon + 1 - 3 else tm.mon + 1 + 9) =
      marchMonth (firstOfMonth (tm.year + 1900) tm.mon) := by
    rw [marchMonth_firstOfMonth]
    split_ifs <;> omega
  have first : (firstOfMonth (tm.year + 1900) tm.mon).day = 1 := rfl
  rw [month, daysFromCivil_bind isYear isMonth fits.eraDays fits.dayOfEra, first,
    checkInt_of_inInt fits.days, bind_some, Int.add_sub_cancel, checkInt_of_inInt fits.number]

theorem daysFromCivil_far (fits : Fits tm) (far : tm.mon < -1 ∨ 13 < tm.mon) :
    daysFromCivil (tm.year + 1900) (toUnsigned (tm.mon + 1)) (toUnsigned tm.mday) ≠
      some (dayNumber (firstOfMonth (tm.year + 1900) tm.mon) + (tm.mday - 1)) := by
  intro result
  have inside := fits.mday
  have monthInside := fits.month
  have later : ¬toUnsigned (tm.mon + 1) ≤ 2 := by
    unfold toUnsigned
    unfold InInt at monthInside
    omega
  have isYear : tm.year + 1900 - (if toUnsigned (tm.mon + 1) ≤ 2 then 1 else 0) =
      tm.year + 1900 := by
    rw [if_neg later, sub_zero]
  have isMonth : (if 2 < toUnsigned (tm.mon + 1) then toUnsigned (tm.mon + 1) - 3
      else toUnsigned (tm.mon + 1) + 9) = toUnsigned (tm.mon + 1) - 3 :=
    if_pos (not_le.mp later)
  have eraDays := inInt_eraDays isYear result
  rw [daysFromCivil_some isYear isMonth eraDays] at result
  obtain ⟨days, isDays, isResult⟩ := bind_eq_some_iff.mp result
  obtain ⟨_, rfl⟩ := checkInt_eq_some.mp isDays
  obtain ⟨_, same⟩ := checkInt_eq_some.mp isResult
  have number := dayNumber_eq_march (firstOfMonth (tm.year + 1900) tm.mon)
  have first : (firstOfMonth (tm.year + 1900) tm.mon).day = 1 := rfl
  rw [marchYear_firstOfMonth, marchMonth_firstOfMonth] at number
  have unsignedMonth : toUnsigned (153 * (toUnsigned (tm.mon + 1) - 3) + 2) =
      toUnsigned (153 * (tm.mon - 2) + 2) := by
    unfold toUnsigned
    omega
  have between := daysBeforeMarch_between (tm.year + 1900) ((tm.mon - 2) / 12)
  have start : 0 ≤ daysBeforeMarch (tm.year + 1900) - (tm.year + 1900) / 400 * 146097 ∧
      daysBeforeMarch (tm.year + 1900) - (tm.year + 1900) / 400 * 146097 ≤ 145731 := by
    unfold daysBeforeMarch
    omega
  have farMonth : tm.mon - 2 < -3 ∨ 11 < tm.mon - 2 := by omega
  apply far_month_mismatch farMonth start.1 start.2 inside rfl between
  have regroup (front : Int) : front + (toUnsigned (153 * (tm.mon - 2) + 2) / 5 +
      toUnsigned tm.mday - 1) =
        front + (toUnsigned (153 * (tm.mon - 2) + 2) / 5 - 1) + toUnsigned tm.mday := by
    omega
  have exact (front : Int) : front + (toUnsigned (153 * (tm.mon - 2) + 2) / 5 - 1) + tm.mday =
      front + (toUnsigned (153 * (tm.mon - 2) + 2) / 5 + tm.mday - 1) := by
    omega
  rw [unsignedMonth, regroup, toInt_add_toUnsigned, exact] at same
  omega

/-- `timegm` computes the seconds of a date with fields out of range if and only if the month is one
of the fifteen from the December before the year to the February after it. -/
theorem timegm_carried_iff (fits : Fits tm) :
    timegm tm = some (carriedSeconds tm) ↔ -1 ≤ tm.mon ∧ tm.mon ≤ 13 := by
  rw [timegm_eq_bind fits, carriedSeconds_eq]
  constructor
  · intro computed
    by_contra outside
    apply daysFromCivil_far fits (by omega)
    obtain ⟨days, isDays, same⟩ := map_eq_some_iff.mp computed
    rw [isDays]
    apply congrArg some
    omega
  · rintro ⟨low, high⟩
    rw [daysFromCivil_near fits low high]
    rfl

end Timegm

end Mlibc.Time
