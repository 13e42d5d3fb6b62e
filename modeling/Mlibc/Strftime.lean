import Mlibc.NumeralText
import Mlibc.Scanf
import Mlibc.TimeConversion

/-!
# Formatted time

The model of `strftime` for `char`.  Texts are lists of characters without terminator.
-/

namespace Mlibc.Strftime

open NumeralText

inductive NameTable where
  | abday | day | abmon | mon | abaltmon | altmon
  deriving DecidableEq

inductive FormatItem where
  | dateTime | date | time
  deriving DecidableEq

structure EraEntry where
  startDate : List Int
  stopDate : List Int
  name : List Int
  format : List Int
  absoluteDirection : Int
  offset : Int

/-- The data of the category `LC_TIME`. -/
structure TimeLocale where
  name : NameTable → Int → List Int
  format : FormatItem → List Int
  eraFormat : FormatItem → List Int
  amStr : List Int
  pmStr : List Int
  tolower : Int → Int
  altDigits : List (List Int)
  eras : List EraEntry

def dateLe : List Int → List Int → Bool
  | [], _ => true
  | _ :: _, [] => false
  | a :: first, b :: second => a < b || (a = b && dateLe first second)

/-- A character of the format, one `nprintf`, a year with zeros, an unchecked pair of characters, or
a nested format. -/
inductive Part where
  | char (c : Int)
  | chunk (text : List Int)
  | padded (zeros text : List Int)
  | pair (text : List Int)
  | nested (format : List Int)
  deriving DecidableEq

/-- What a call does.  The text is what is stored in front of the terminator. -/
inductive Outcome where
  | returns (result : Nat) (text : List Int)
  | overrun
  | ensureFails
  | panics
  | undefined
  | deeper
  deriving DecidableEq

def printD (precision : Nat) (v : Int) : List Int :=
  (if v < 0 then [45] else []) ++
    (List.replicate (precision - (numberText 10 v.natAbs).length) 48 ++ numberText 10 v.natAbs)

def printWidth (pad : Int) (v : Int) : List Int :=
  if pad = 48 ∧ v < 0 then printD 1 v
  else List.replicate (2 - (printD 1 v).length) pad ++ printD 1 v

def separated (separator : Int) : List (List Int) → List Int
  | [] => []
  | [text] => text
  | text :: texts => text ++ separator :: separated separator texts

def isLeap (year : Int) : Bool :=
  let y := year % 400 + 300
  y % 4 = 0 && (y % 100 ≠ 0 || y % 400 = 0)

def hour12 (hour : Int) : Int :=
  let hour := if hour = 0 then 12 else hour
  if hour > 12 then hour - 12 else hour

/-- The flags between the percent sign and the conversion. -/
structure Flags where
  zeroPad : Bool
  minimumWidth : Nat
  useAlternativeSymbols : Bool
  useAlternativeEraFormat : Bool

section Directives

variable (l : TimeLocale) (tm : Time.Tm) (zone : List Int)

def weekNum : Int :=
  let isoWday := (tm.wday - 1) % 7
  let val := (tm.yday - isoWday + 7).tdiv 7
  let jan1Wday := (tm.wday - tm.yday) % 7
  let val := if (jan1Wday - 2) % 7 ≤ 2 then val + 1 else val
  if val = 0 then
    let dec31PrevWday := (jan1Wday - 1) % 7
    let prevYear := if tm.year = -2147483648 then 2147483647 - (400 - 1) else tm.year - 1
    if dec31PrevWday = 4 ∨ (dec31PrevWday = 5 ∧ isLeap prevYear) then 53 else 52
  else if val = 53 ∧ ¬(jan1Wday = 4 ∨ (jan1Wday = 3 ∧ isLeap tm.year)) then 1
  else val

def findEra (flags : Flags) : Option EraEntry :=
  let date := [tm.year, tm.mon, tm.mday]
  if flags.useAlternativeEraFormat then
    l.eras.find? fun e => (dateLe e.startDate date && dateLe date e.stopDate) ||
      (dateLe e.stopDate date && dateLe date e.startDate)
  else none

def printDigits (flags : Flags) (v max : Int) (text : List Int) : List Part :=
  if flags.useAlternativeSymbols = true ∧ 0 ≤ v ∧ v ≤ max then
    [.chunk (l.altDigits[v.toNat]?.getD text)]
  else [.chunk text]

def localeFormat (flags : Flags) (item : FormatItem) : List Part :=
  if flags.useAlternativeEraFormat = true ∧ l.eraFormat item ≠ [] then
    [.nested (l.eraFormat item)]
  else [.nested (l.format item)]

def zeroPadded (flags : Flags) (width : Nat) (text : List Int) : List Part :=
  if flags.zeroPad = true ∧ text.length < width then
    [.padded (printD (width - text.length) 0) text]
  else [.chunk text]

def monthName (flags : Flags) (full : Bool) : Except Outcome (List Part) :=
  let table :=
    match flags.useAlternativeSymbols, full with
    | true, true => NameTable.altmon
    | true, false => NameTable.abaltmon
    | false, true => NameTable.mon
    | false, false => NameTable.abmon
  if tm.mon < 0 ∨ tm.mon > 11 then .error .ensureFails else .ok [.chunk (l.name table tm.mon)]

def directiveParts (flags : Flags) (ch : Int) : Except Outcome (List Part) :=
  let year := printD 1 (1900 + tm.year)
  let date := separated 45 [year, printD 2 (tm.mon + 1), printD 2 tm.mday]
  let meridian := if tm.hour < 12 then l.amStr else l.pmStr
  let min := tm.gmtoff.tdiv 60
  let diff := (min.tdiv 60) * 100 + min.tmod 60
  match ch with
  | 89 => -- Y
    match findEra l tm flags with
    | some era => .ok [.nested era.format]
    | none => .ok (zeroPadded flags flags.minimumWidth year)
  | 109 => .ok (printDigits l flags (tm.mon + 1) 12 (printD 2 (tm.mon + 1))) -- m
  | 100 => .ok (printDigits l flags tm.mday 31 (printD 2 tm.mday)) -- d
  | 122 => .ok [.chunk ((if 0 ≤ diff then 43 else 45) :: printD 4 diff.natAbs)] -- z
  | 90 => .ok [.chunk zone] -- Z
  | 72 => .ok (printDigits l flags tm.hour 23 (printD 2 tm.hour)) -- H
  | 77 => .ok (printDigits l flags tm.min 59 (printD 2 tm.min)) -- M
  | 83 => .ok (printDigits l flags tm.sec 60 (printD 2 tm.sec)) -- S
  | 82 => .ok [.chunk (separated 58 [printD 2 tm.hour, printD 2 tm.min])] -- R
  | 84 => .ok [.chunk (separated 58 [printD 2 tm.hour, printD 2 tm.min, printD 2 tm.sec])] -- T
  | 70 => -- F
    let width := if flags.minimumWidth = 0 then 0 else max flags.minimumWidth 6
    .ok (zeroPadded flags width date)
  | 68 => -- D
    .ok [.chunk (separated 47 [printD 2 (tm.mon + 1), printD 2 tm.mday,
      printD 2 ((tm.year + 1900).tmod 100)])]
  | 97 => -- a
    if tm.wday < 0 ∨ tm.wday > 6 then .error .ensureFails
    else .ok [.chunk (l.name .abday tm.wday)]
  | 98 => monthName l tm flags false -- b
  | 66 => monthName l tm flags true -- B
  | 104 => monthName l tm flags false -- h
  | 99 => .ok (localeFormat l flags .dateTime) -- c
  | 101 => .ok (printDigits l flags tm.mday 31 (printWidth 32 tm.mday)) -- e
  | 108 => .ok [.chunk (printWidth 32 (hour12 tm.hour))] -- l
  | 107 => .ok [.chunk (printWidth 32 tm.hour)] -- k
  | 73 => .ok (printDigits l flags (hour12 tm.hour) 12 (printD 2 (hour12 tm.hour))) -- I
  | 112 => .ok [.chunk meridian] -- p
  | 80 => .ok [.chunk (meridian.map l.tolower)] -- P
  | 67 => -- C
    match findEra l tm flags with
    | some era => .ok [.chunk era.name]
    | none =>
      let century := printD 2 ((1900 + tm.year).tdiv 100)
      if flags.zeroPad = true ∧ 2 < flags.minimumWidth then
        .ok [.chunk (printD (flags.minimumWidth - 2) 0), .chunk century]
      else .ok [.chunk century]
  | 121 => -- y
    let year :=
      match findEra l tm flags with
      | some era => (tm.year - era.startDate.headD 0) * era.absoluteDirection + era.offset
      | none => (1900 + tm.year).tmod 100
    .ok (printDigits l flags year 99 (printD 2 year))
  | 106 => .ok [.chunk (printD 3 (tm.yday + 1))] -- j
  | 65 => .ok [.chunk (l.name .day tm.wday)] -- A
  | 114 => -- r
    .ok [.chunk (separated 58 [printD 2 (hour12 tm.hour), printD 2 tm.min, printD 2 tm.sec] ++
      32 :: meridian)]
  | 119 => .ok (printDigits l flags tm.wday 6 (printD 1 tm.wday)) -- w
  | 37 => .ok [.chunk [37]] -- %
  | 110 => .ok [.chunk [10]] -- n
  | 116 => .ok [.chunk [9]] -- t
  | 120 => .ok (localeFormat l flags .date) -- x
  | 88 => .ok (localeFormat l flags .time) -- X
  | 117 => -- u
    let wday := if tm.wday = 0 then 7 else tm.wday
    .ok (printDigits l flags wday 7 (printD 1 wday))
  | 85 => -- U
    let week := (tm.yday + 7 - tm.wday).tdiv 7
    .ok (printDigits l flags week 53 (printWidth 48 week))
  | 87 => -- W
    let week := (tm.yday + 7 - (tm.wday + 6).tmod 7).tdiv 7
    .ok (printDigits l flags week 53 (printD 1 week))
  | 86 => .ok (printDigits l flags (weekNum tm) 53 (printD 1 (weekNum tm))) -- V
  | _ => .error .panics

def alternativeSymbols : List Int := [66, 98, 100, 101, 72, 73, 109, 77, 83, 117, 85, 86, 119,
  87, 121]

def alternativeEras : List Int := [99, 67, 120, 88, 121, 89]

def letterParts (flags : Flags) : List Int → Except Outcome (List Part × List Int)
  | [] => .ok ([.chunk [37]], [])
  | ch :: fmt =>
    match directiveParts l tm zone flags ch with
    | .error outcome => .error outcome
    | .ok parts => .ok (parts, fmt)

def readDirective (fmt : List Int) : Except Outcome (List Part × List Int) :=
  let zeroPad := decide (fmt.headD 0 = 48)
  let fmt := if fmt.headD 0 = 48 ∨ fmt.headD 0 = 43 then fmt.tail else fmt
  match if 49 ≤ fmt.headD 0 ∧ fmt.headD 0 ≤ 57 then Scanf.readWidth 0 fmt else some (0, fmt) with
  | none => .error .undefined
  | some (width, fmt) =>
    if fmt.headD 0 = 79 then
      if fmt.tail.headD 0 ∈ alternativeSymbols then
        letterParts l tm zone ⟨zeroPad, width, true, false⟩ fmt.tail
      else .ok ([.pair [37, 79]], fmt.tail)
    else if fmt.headD 0 = 69 then
      if fmt.tail.headD 0 ∈ alternativeEras then
        letterParts l tm zone ⟨zeroPad, width, false, true⟩ fmt.tail
      else .ok ([.pair [37, 69]], fmt.tail)
    else letterParts l tm zone ⟨zeroPad, width, false, false⟩ fmt

def printPart (nested : Nat → List Int → Outcome) (maxSize : Nat) (printed : List Int) :
    Part → Except Outcome (List Int)
  | .char c =>
    if maxSize - printed.length = 0 then .error (.returns 0 []) else .ok (printed ++ [c])
  | .chunk text =>
    if maxSize - printed.length ≤ text.length then .error (.returns 0 [])
    else .ok (printed ++ text)
  | .padded zeros text =>
    if maxSize - printed.length ≤ text.length then .error (.returns 0 [])
    else if maxSize - printed.length ≤ zeros.length then .error (.returns 0 [])
    else if maxSize - printed.length - zeros.length ≤ text.length then .error (.returns 0 [])
    else .ok (printed ++ (zeros ++ text))
  | .pair text =>
    if maxSize - printed.length < text.length then .error .overrun else .ok (printed ++ text)
  | .nested format =>
    match nested (maxSize - printed.length) format with
    | .returns chunk text =>
      if maxSize - printed.length ≤ chunk then .error (.returns 0 [])
      else .ok (printed ++ text.take chunk)
    | outcome => .error outcome

def finish (maxSize : Nat) (printed : List Int) : Outcome :=
  if maxSize - printed.length = 0 then .returns 0 [] else .returns printed.length printed

def strftimeLoop (nested : Nat → List Int → Outcome) (maxSize : Nat) :
    Nat → List Int → List Int → Outcome
  | 0, _, printed => finish maxSize printed
  | _ + 1, [], printed => finish maxSize printed
  | passes + 1, c :: fmt, printed =>
    match if c ≠ 37 then .ok ([.char c], fmt) else readDirective l tm zone fmt with
    | .error outcome => outcome
    | .ok (parts, fmt) =>
      match parts.foldlM (printPart nested maxSize) printed with
      | .error outcome => outcome
      | .ok printed => strftimeLoop nested maxSize passes fmt printed

def strftime : Nat → Nat → List Int → Outcome
  | 0, _, _ => .deeper
  | depth + 1, maxSize, format =>
    strftimeLoop l tm zone (strftime depth) maxSize format.length format []

end Directives

end Mlibc.Strftime
