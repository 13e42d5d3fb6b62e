import Mlibc.TimeCarry

/-! # The times of local dates -/

namespace Mlibc.Time

open Calendar

def MktimeInverts (timezone time : Int) : Prop :=
  ∃ tm, localtimeR timezone time = some tm ∧ (mktime tm).1 = some time

/-- The fields are those of the date of the time. -/
structure Tm.Normalised (tm : Tm) (time : Int) : Prop where
  canonical : tm.Canonical
  denotes : tm.Denotes time
  yearDay : tm.DenotesYearDay time

/-- The fields are in their ranges, and the day of the week and the day of the year are those of
the date. -/
structure Tm.InOrder (tm : Tm) : Prop where
  canonical : tm.Canonical
  days : ∀ date : Date, date.year = tm.year + 1900 → date.month = tm.mon + 1 →
    date.day = tm.mday → tm.wday = (dayNumber date + 4) % 7 ∧
      tm.yday = daysBeforeMonth date.year date.month + (date.day - 1)

section Local

variable {timezone time : Int}

theorem timegm_local (tm : Tm) (isdst gmtoff : Int) :
    timegm { tm with isdst := isdst, gmtoff := gmtoff } = timegm tm := rfl

theorem mktimeInverts_iff (low : -604800 ≤ timezone) (high : timezone ≤ 604800)
    (nonnegative : 0 ≤ time - timezone) :
    MktimeInverts timezone time ↔ timezone = 0 ∧ time / 86400 ≤ 2146764179 := by
  have rounds : 0 ≤ time + -timezone ∨ 86400 ∣ time + -timezone := .inl (by omega)
  have clockLow : 0 ≤ (time + -timezone) % 86400 := by omega
  have clockHigh : (time + -timezone) % 86400 < 86400 := by omega
  have inside := inInt_toInt ((time + -timezone) / 86400)
  by_cases small : toInt ((time + -timezone) / 86400) ≤ 2146906431
  · obtain ⟨date, number, converted⟩ := gmtimeR_eq rounds small
    have back := timegm_eq clockLow clockHigh (number ▸ inside)
    have inverts : MktimeInverts timezone time ↔
        timegm (tmOf ((time + -timezone) % 86400) date) = some time := by
      simp only [MktimeInverts, localtimeR, converted, Option.map_some, Option.some.injEq,
        exists_eq_left', mktime, timegm_local]
    rw [inverts, back, number]
    unfold toInt
    constructor
    · intro same
      split_ifs at same with fits
      have sameTime := Option.some.inj same
      constructor <;> omega
    rintro ⟨rfl, fits⟩
    rw [if_pos (by omega)]
    apply congrArg some
    omega
  · have failed := gmtimeR_eq_none rounds (not_le.mp small)
    apply iff_of_false
    · rintro ⟨tm, converted, _⟩
      simp only [localtimeR, failed] at converted
      cases converted
    rintro ⟨rfl, fits⟩
    apply small
    unfold toInt
    omega

end Local

section Fields

variable {tm : Tm}

def Tm.Canonical.date (canonical : tm.Canonical) : Date where
  year := tm.year + 1900
  month := tm.mon + 1
  day := tm.mday
  month_pos := by
    have low := canonical.mon.1
    omega
  month_le := by
    have high := canonical.mon.2
    omega
  day_pos := canonical.mday.1
  day_le := canonical.mday.2

theorem carriedSeconds_canonical (canonical : tm.Canonical) :
    carriedSeconds tm / 86400 = dayNumber canonical.date ∧
      carriedSeconds tm % 86400 = tm.hour * 3600 + tm.min * 60 + tm.sec := by
  obtain ⟨secLow, secHigh⟩ := canonical.sec
  obtain ⟨minLow, minHigh⟩ := canonical.min
  obtain ⟨hourLow, hourHigh⟩ := canonical.hour
  obtain ⟨monLow, monHigh⟩ := canonical.mon
  have quotient : tm.mon / 12 = 0 := by omega
  have remainder : tm.mon % 12 = tm.mon := by omega
  have first : dayNumber (firstOfMonth (tm.year + 1900) tm.mon) + (tm.mday - 1) =
      dayNumber canonical.date := by
    simp only [dayNumber, firstOfMonth, Tm.Canonical.date, quotient, remainder, add_zero]
    omega
  rw [carriedSeconds_eq]
  constructor <;> omega

theorem mktime_normalised_iff (tm : Tm) :
    (mktime tm).2.Normalised (carriedSeconds tm) ↔ tm.InOrder := by
  change tm.Normalised (carriedSeconds tm) ↔ _
  constructor
  · rintro ⟨canonical, denotes, yearDay⟩
    obtain ⟨number, _⟩ := carriedSeconds_canonical canonical
    have isDay : IsDay (carriedSeconds tm / 86400) canonical.date := isDay_iff.mpr number.symm
    have wday := denotes.wday
    have yday := (denotesYearDay_iff isDay tm).mp yearDay
    rw [number] at wday
    refine ⟨canonical, ?_⟩
    intro date year month day
    have same : date = canonical.date := Date.ext year month day
    rw [same]
    exact ⟨wday, yday⟩
  · rintro ⟨canonical, days⟩
    obtain ⟨number, clock⟩ := carriedSeconds_canonical canonical
    have isDay : IsDay (carriedSeconds tm / 86400) canonical.date := isDay_iff.mpr number.symm
    obtain ⟨wday, yday⟩ := days canonical.date rfl rfl rfl
    refine ⟨canonical, ⟨⟨canonical.date, isDay, rfl, rfl, rfl⟩, clock.symm, ?_⟩,
      (denotesYearDay_iff isDay tm).mpr yday⟩
    rw [number]
    exact wday

end Fields

/-- `mktime` leads back from a local date if and only if the zone has no offset and the days do not
overflow; `timegm` carries the fields if and only if the month is one of fifteen; and `mktime`
leaves the fields as they were. -/
theorem mktime_timegm_iff (nameMax : Nat) (tz : List Int) (timezone time : Int) (tm : Tm) :
    (IsTimezone nameMax tz timezone → 0 ≤ time → 0 ≤ time - timezone →
      (MktimeInverts timezone time ↔ timezone = 0 ∧ time / 86400 ≤ 2146764179)) ∧
    (Fits tm → (timegm tm = some (carriedSeconds tm) ↔ -1 ≤ tm.mon ∧ tm.mon ≤ 13)) ∧
    ((mktime tm).2.Normalised (carriedSeconds tm) ↔ tm.InOrder) := by
  refine ⟨?_, timegm_carried_iff, mktime_normalised_iff tm⟩
  intro isTimezone _ nonnegative
  obtain ⟨name, _, read⟩ := Option.bind_eq_some_iff.mp isTimezone
  obtain ⟨low, high⟩ := getoffset_bounds read
  exact mktimeInverts_iff low high nonnegative

/-- The zone `UTC0`, the February after the year 1999, and the fields of the 29th of February
2000, a Tuesday. -/
theorem mktime_timegm_leapDay :
    MktimeInverts 0 951782400 ∧ timegm ⟨0, 0, 0, 29, 13, 99, 0, 0, 0, 0⟩ =
        some (carriedSeconds ⟨0, 0, 0, 29, 13, 99, 0, 0, 0, 0⟩) ∧
      (mktime ⟨0, 0, 0, 29, 1, 100, 2, 59, 0, 0⟩).2.Normalised
        (carriedSeconds ⟨0, 0, 0, 29, 1, 100, 2, 59, 0, 0⟩) := by
  obtain ⟨inverts, carries, _⟩ := mktime_timegm_iff 6 [85, 84, 67, 48] 0 951782400
    ⟨0, 0, 0, 29, 13, 99, 0, 0, 0, 0⟩
  have normalises := (mktime_timegm_iff 6 [] 0 0 ⟨0, 0, 0, 29, 1, 100, 2, 59, 0, 0⟩).2.2
  have utc : IsTimezone 6 [85, 84, 67, 48] 0 := by decide
  have fits : Fits ⟨0, 0, 0, 29, 13, 99, 0, 0, 0, 0⟩ := by constructor <;> decide
  refine ⟨(inverts utc (by decide) (by decide)).mpr (by decide), (carries fits).mpr (by decide),
    normalises.mpr ⟨?_, ?_⟩⟩
  · constructor <;> decide
  · rintro ⟨year, month, day, _, _, _, _⟩ rfl rfl rfl
    exact ⟨rfl, rfl⟩

/-- In `CET-1` the epoch is one hour later; and the month 14 stays 14, with two days added. -/
theorem mktime_timegm_wrong :
    (IsTimezone 6 [67, 69, 84, 45, 49] (-3600) ∧ ¬MktimeInverts (-3600) 0) ∧
      (Fits ⟨0, 0, 0, 1, 14, 70, 0, 0, 0, 0⟩ ∧ timegm ⟨0, 0, 0, 1, 14, 70, 0, 0, 0, 0⟩ ≠
          some (carriedSeconds ⟨0, 0, 0, 1, 14, 70, 0, 0, 0, 0⟩)) ∧
      ¬(mktime ⟨0, 0, 0, 1, 14, 70, 0, 0, 0, 0⟩).2.Normalised
        (carriedSeconds ⟨0, 0, 0, 1, 14, 70, 0, 0, 0, 0⟩) := by
  refine ⟨⟨by decide, ?_⟩, ⟨by constructor <;> decide, by decide⟩, ?_⟩
  · rintro ⟨tm, converted, back⟩
    have result : localtimeR (-3600) 0 = some ⟨0, 0, 1, 1, 0, 70, 4, 0, 0, 3600⟩ := by decide
    cases result.symm.trans converted
    exact absurd back (by decide)
  · rintro ⟨canonical, _, _⟩
    exact absurd canonical.mon.2 (by decide)

end Mlibc.Time
