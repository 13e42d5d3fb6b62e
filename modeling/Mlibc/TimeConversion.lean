import Mlibc.MachineInt

/-!
# Conversions between times and dates

The model of `gmtime_r` and `timegm`.  A computation of `int` that overflows has no result.
-/

namespace Mlibc.Time

def civilFromDays (daysSinceEpoch : Int) : Option (Int × Int × Int) := do
  let time := daysSinceEpoch + 719468
  let era := toInt ((if 0 ≤ time then time else time - 146096).tdiv 146097)
  let eraDays ← checkInt (era * 146097)
  let doe := toUnsigned (time - eraDays)
  let yoe := toUnsigned (doe - doe / 1460 + doe / 36524 - doe / 146096) / 365
  let eraYears ← checkInt (era * 400)
  let y ← checkInt (toInt yoe + eraYears)
  let doy := toUnsigned (doe - toUnsigned (365 * yoe + yoe / 4 - yoe / 100))
  let mp := toUnsigned (5 * doy + 2) / 153
  let d := toUnsigned (doy - toUnsigned (153 * mp + 2) / 5 + 1)
  let m := toUnsigned (mp + if mp < 10 then 3 else -9)
  let year ← checkInt (y + if m ≤ 2 then 1 else 0)
  return (year, m, d)

def weekdayFromDays (daysSinceEpoch : Int) : Int :=
  toUnsigned (if -4 ≤ daysSinceEpoch then (daysSinceEpoch + 4).tmod 7
    else (daysSinceEpoch + 5).tmod 7 + 6)

def yeardayFromDate (year month day : Int) : Int :=
  let n1 := toUnsigned (275 * month) / 9
  let n2 := toUnsigned (month + 9) / 12
  let n3 := toUnsigned (1 + toUnsigned (year - toUnsigned (4 * year) / 4 + 2) / 3)
  toUnsigned (n1 - n2 * n3 + day - 30)

/-- The fields of `struct tm` that are set by `gmtime_r`, except for the name of the time
zone. -/
structure Tm where
  sec : Int
  min : Int
  hour : Int
  mday : Int
  mon : Int
  year : Int
  wday : Int
  yday : Int
  isdst : Int
  gmtoff : Int
deriving DecidableEq, Repr

def gmtimeR (unixGmt : Int) : Option Tm := do
  let daysSinceEpoch := toInt (unixGmt.tdiv (60 * 60 * 24))
  let (year, month, day) ← civilFromDays daysSinceEpoch
  let weekday := weekdayFromDays daysSinceEpoch
  let yday := yeardayFromDate (toUnsigned year) month day
  let tmYear ← checkInt (year - 1900)
  return {
    sec := toInt (unixGmt.tmod 60)
    min := toInt ((unixGmt.tdiv 60).tmod 60)
    hour := toInt ((unixGmt.tdiv (60 * 60)).tmod 24)
    mday := toInt day
    mon := toInt (toUnsigned (month - 1))
    year := tmYear
    wday := toInt weekday
    yday := toInt (toUnsigned (yday - 1))
    isdst := -1
    gmtoff := 0 }

def daysFromCivil (year m d : Int) : Option Int := do
  let y ← checkInt (year - if m ≤ 2 then 1 else 0)
  let shifted ← (if 0 ≤ y then some y else checkInt (y - 399) : Option Int)
  let era := shifted.tdiv 400
  let eraYears ← checkInt (era * 400)
  let yearOfEra ← checkInt (y - eraYears)
  let yoe := toUnsigned yearOfEra
  let doy := toUnsigned (toUnsigned (153 * (if 2 < m then m - 3 else m + 9) + 2) / 5 + d - 1)
  let doe := toUnsigned (yoe * 365 + yoe / 4 - yoe / 100 + doy)
  let eraDays ← checkInt (era * 146097)
  let days ← checkInt (eraDays + toInt doe)
  checkInt (days - 719468)

def timegm (tm : Tm) : Option Int := do
  let year ← checkInt (tm.year + 1900)
  let month ← checkInt (tm.mon + 1)
  let days ← daysFromCivil year (toUnsigned month) (toUnsigned tm.mday)
  let hours ← checkInt (tm.hour * 60)
  let hourSeconds ← checkInt (hours * 60)
  let minuteSeconds ← checkInt (tm.min * 60)
  return days * 86400 + hourSeconds + minuteSeconds + tm.sec

end Mlibc.Time
