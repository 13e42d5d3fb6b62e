import Mlibc.FloatText

/-!
# The conversion of a text to a floating-point number

The model of `strtofp` in the C locale, for any arithmetic.  `endptr` is a number of characters.
-/

namespace Mlibc.StringToFloat

open IntegerText FloatText

/-- The operations of the result type. -/
structure Arithmetic (T : Type*) where
  ofInt : Int → T
  add : T → T → T
  mul : T → T → T
  div : T → T → T
  neg : T → T
  inf : T
  nan : T

variable {T : Type*} (arithmetic : Arithmetic T) (hex : Bool)

def numerals : Numerals := if hex then hexadecimal else decimal

def base : Int := if hex then 16 else 10

def exponentBase : Int := if hex then 2 else 10

def digit (c : Int) : Int :=
  if hex then if c ≤ 57 then c - 48 else toLower c - 97 + 10 else c - 48

def scanWhole : List Int → T → T × List Int
  | [], result => (result, [])
  | c :: tmp, result =>
    if (numerals hex).isNumeral c then
      scanWhole tmp (arithmetic.add (arithmetic.mul result (arithmetic.ofInt (base hex)))
        (arithmetic.ofInt (digit hex c)))
    else (result, c :: tmp)

def scanFraction : List Int → T → T → T × List Int
  | [], _, result => (result, [])
  | c :: tmp, d, result =>
    if (numerals hex).isNumeral c then
      scanFraction tmp (arithmetic.mul d (arithmetic.ofInt (base hex)))
        (arithmetic.add result (arithmetic.div (arithmetic.ofInt (digit hex c)) d))
    else (result, c :: tmp)

def scanExponent : List Int → Int → Int × List Int
  | [], exp => (exp, [])
  | c :: tmp, exp =>
    if isDigit c then scanExponent tmp (exp * 10 + (c - 48)) else (exp, c :: tmp)

def scale (expNegative : Bool) : Nat → T → T
  | 0, result => result
  | n + 1, result =>
    scale expNegative n
      (if expNegative then arithmetic.div result (arithmetic.ofInt (exponentBase hex))
      else arithmetic.mul result (arithmetic.ofInt (exponentBase hex)))

def readExponent (tmp : List Int) (result : T) : T × List Int :=
  match tmp with
  | [] => (result, [])
  | ch :: rest =>
    if (numerals hex).isLetter ch then
      let expNegative := rest.head? = some 45
      let ds := if rest.head? = some 43 ∨ rest.head? = some 45 then rest.drop 1 else rest
      if isDigit (ds.headD 0) then
        let (exp, tmp) := scanExponent ds 0
        (scale arithmetic hex (decide expNegative) exp.toNat result, tmp)
      else (result, tmp)
    else (result, tmp)

def readNumber (str : List Int) : T × List Int :=
  let (result, tmp) := scanWhole arithmetic hex str (arithmetic.ofInt 0)
  let (result, tmp) :=
    if tmp.head? = some 46 then
      scanFraction arithmetic hex (tmp.drop 1) (arithmetic.ofInt (base hex)) result
    else (result, tmp)
  readExponent arithmetic hex tmp result

def infUpper : List Int := [73, 78, 70]

def infinityUpper : List Int := [73, 78, 70, 73, 78, 73, 84, 89]

def nanUpper : List Int := [78, 65, 78]

def strtofp (text : List Int) : T × Nat :=
  let str := text.dropWhile isSpace
  let negative := str.head? = some 45
  let str := if str.head? = some 43 ∨ str.head? = some 45 then str.drop 1 else str
  let signed (result : T) := if negative then arithmetic.neg result else result
  let start := text.length - str.length
  if str = infUpper ∨ str = infWord then (signed arithmetic.inf, start + 3)
  else if str = infinityUpper ∨ str = infinityWord then (signed arithmetic.inf, start + 8)
  else if str.take 3 = nanUpper ∨ str.take 3 = nanWord then (signed arithmetic.nan, start + 3)
  else
    let hasPrefix := HasHexPrefix str
    let (result, tmp) :=
      readNumber arithmetic (decide hasPrefix) (if hasPrefix then str.drop 2 else str)
    (signed result, text.length - tmp.length)

def ReportsSubject (text : List Int) (endptr : Nat) : Prop :=
  ∃ length, LongestPrefix Subject text length ∧ endptr = length.getD 0

def BeginsExponent (text : List Int) : Prop := decimal.exponentOf text ≠ []

instance (text : List Int) : Decidable (BeginsExponent text) := inferInstanceAs (Decidable (¬_))

def Handled (text : List Int) : Prop :=
  let str := afterSign text
  if BeginsWith infWord str then
    str = infWord ∨ str = infUpper ∨ str = infinityWord ∨ str = infinityUpper
  else if BeginsWith nanWord str then str.take 3 = nanWord ∨ str.take 3 = nanUpper
  else if HasHexPrefix str then hexadecimal.beginsNumber (str.drop 2) = true
  else decimal.beginsNumber str = true ∨ lead text = [] ∧ str.head? ≠ some 46 ∧ ¬BeginsExponent str

instance (text : List Int) : Decidable (Handled text) :=
  inferInstanceAs (Decidable (ite _ _ _))

end Mlibc.StringToFloat
