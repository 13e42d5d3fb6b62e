import Mlibc.IntegerText
import Mlibc.TimeConversion

/-!
# Time zones without daylight saving

The model of `parse_tz` up to the offset of the standard time, of `localtime_r` for such a zone,
and of `mktime`.
-/

namespace Mlibc.Time

open IntegerText

def getnumLoop (max num : Nat) : List Int → Option (Nat × List Int)
  | [] => some (num, [])
  | c :: str =>
    if isDigit c then
      if num * 10 + (c - 48).toNat > max then none
      else getnumLoop max (num * 10 + (c - 48).toNat) str
    else some (num, c :: str)

def getnum (min max : Nat) (str : List Int) : Option (Nat × List Int) :=
  if isDigit (str.headD 0) then
    match getnumLoop max 0 str with
    | none => none
    | some (num, str) => if num < min then none else some (num, str)
  else none

def getpart (max : Nat) (str : List Int) : Option (Nat × List Int) :=
  if str.head? = some 58 then getnum 0 max str.tail else some (0, str)

def getoffset (str : List Int) : Option (Int × List Int) := do
  let neg := str.head? = some 45
  let str := if str.head? = some 45 ∨ str.head? = some 43 then str.tail else str
  let (hours, str) ← getnum 0 (24 * 7 - 1) str
  let (minutes, rest) ← getpart 59 str
  let (seconds, rest) ← (if str.head? = some 58 then getpart 60 rest else some (0, rest))
  let offset : Int := hours * 60 * 60 + minutes * 60 + seconds
  return (if neg then offset * -1 else offset, rest)

def zoneName (nameMax : Nat) (quoted : Bool) : Nat → List Int → Option (List Int)
  | _, [] => some []
  | length, c :: tz =>
    if length > nameMax then none
    else if isUpper c ∨ isLower c then zoneName nameMax quoted (length + 1) tz
    else if quoted = true ∧ (c = 43 ∨ c = 45 ∨ isDigit c) then
      zoneName nameMax quoted (length + 1) tz
    else if length < 3 then none
    else if quoted then if c = 62 then some tz else none
    else some (c :: tz)

def parseTz (nameMax : Nat) (tz : List Int) : Option (Int × List Int) := do
  let tz := if tz.head? = some 58 then tz.tail else tz
  let quoted := decide (tz.head? = some 60)
  let tz ← zoneName nameMax quoted 0 (if quoted then tz.tail else tz)
  getoffset tz

/-- The variable `TZ` is a time zone without daylight saving, with the value of `timezone`.  The
empty text stands for `UTC0`. -/
def IsTimezone (nameMax : Nat) (tz : List Int) (timezone : Int) : Prop :=
  parseTz nameMax (if tz = [] then [85, 84, 67, 48] else tz) = some (timezone, [])

instance (nameMax : Nat) (tz : List Int) (timezone : Int) :
    Decidable (IsTimezone nameMax tz timezone) := inferInstanceAs (Decidable (_ = _))

/-- `localtime_r`, without daylight saving.  Its lines are those of `gmtime_r` for the local
time. -/
def localtimeR (timezone unixGmt : Int) : Option Tm :=
  let offset := -timezone
  (gmtimeR (unixGmt + offset)).map fun tm => { tm with isdst := 0, gmtoff := offset }

def mktime (tm : Tm) : Option Int × Tm := (timegm tm, tm)

theorem getnumLoop_le {max num value : Nat} {str rest : List Int} (start : num ≤ max)
    (read : getnumLoop max num str = some (value, rest)) : value ≤ max := by
  induction str generalizing num with
  | nil =>
    cases read
    exact start
  | cons c str ih =>
    unfold getnumLoop at read
    split_ifs at read with digit large
    · exact ih (by omega) read
    · cases read
      exact start

theorem getnum_le {min max value : Nat} {str rest : List Int}
    (read : getnum min max str = some (value, rest)) : value ≤ max := by
  unfold getnum at read
  split_ifs at read with digit
  cases found : getnumLoop max 0 str with
  | none =>
    rw [found] at read
    cases read
  | some result =>
    rw [found] at read
    dsimp only at read
    split_ifs at read
    cases read
    exact getnumLoop_le (Nat.zero_le max) found

theorem getpart_le {max value : Nat} {str rest : List Int}
    (read : getpart max str = some (value, rest)) : value ≤ max := by
  unfold getpart at read
  split_ifs at read
  · exact getnum_le read
  · cases read
    exact Nat.zero_le max

theorem getoffset_bounds {str rest : List Int} {offset : Int}
    (read : getoffset str = some (offset, rest)) : -604800 ≤ offset ∧ offset ≤ 604800 := by
  obtain ⟨⟨hours, afterHours⟩, readHours, read⟩ := Option.bind_eq_some_iff.mp read
  obtain ⟨⟨minutes, afterMinutes⟩, readMinutes, read⟩ := Option.bind_eq_some_iff.mp read
  obtain ⟨⟨seconds, afterSeconds⟩, readSeconds, read⟩ := Option.bind_eq_some_iff.mp read
  have hoursLe := getnum_le readHours
  have minutesLe := getpart_le readMinutes
  have secondsLe : seconds ≤ 60 := by
    split_ifs at readSeconds
    · exact getpart_le readSeconds
    · cases readSeconds
      decide
  cases read
  split_ifs <;> omega

end Mlibc.Time
