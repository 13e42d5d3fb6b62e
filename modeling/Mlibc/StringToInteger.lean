import Mathlib.Data.Nat.Bitwise
import Mlibc.IntegerText

/-!
# The conversion of a text to an integer

The model of `stringToInteger`.  `endptr` is a number of characters.
-/

namespace Mlibc.StringToInteger

open IntegerText

/-- The type of the result: `long`, `unsigned long`, `long long` or `unsigned long long`. -/
structure IntegerType where
  bits : Nat
  signed : Bool
  bits_eq : bits = 32 ∨ bits = 64

namespace IntegerType

variable (type : IntegerType)

def max : Int := if type.signed then 2 ^ (type.bits - 1) - 1 else 2 ^ type.bits - 1

def min : Int := if type.signed then -2 ^ (type.bits - 1) else 0

def toUnsigned (value : Int) : Nat := (value % 2 ^ type.bits).toNat

def convert (value : Int) : Int :=
  if type.signed then (value + 2 ^ (type.bits - 1)) % 2 ^ type.bits - 2 ^ (type.bits - 1)
  else value % 2 ^ type.bits

end IntegerType

/-- What is returned, what is stored to `endptr`, and whether `errno` is set to `ERANGE`. -/
structure Result where
  value : Int
  endptr : Nat
  erange : Bool
  deriving DecidableEq

def skipSign (s : List Int) : Bool × List Int :=
  if s.head? = some 45 then (true, s.drop 1)
  else if s.head? = some 43 then (false, s.drop 1)
  else (false, s)

def skipPrefix (base : Int) (s : List Int) : Int × List Int :=
  let hasOctalPrefix := s.head? = some 48
  let hasHexPrefix := hasOctalPrefix ∧ (s[1]? = some 120 ∨ s[1]? = some 88)
  let hasBinPrefix := hasOctalPrefix ∧ (s[1]? = some 98 ∨ s[1]? = some 66)
  if (base = 0 ∨ base = 16) ∧ hasHexPrefix ∧ isHexDigit (s.getD 2 0) = true then (16, s.drop 2)
  else if (base = 0 ∨ base = 2) ∧ hasBinPrefix then (2, s.drop 2)
  else if (base = 0 ∨ base = 8) ∧ hasOctalPrefix then (8, s)
  else if base = 0 then (10, s)
  else (base, s)

def cutoffs (type : IntegerType) (base : Int) (neg : Bool) : Nat × Nat :=
  if type.signed then
    let co := if neg then type.min else type.max
    let cutlim := if neg then -co.tmod base else co.tmod base
    (type.toUnsigned (co.tdiv (if neg then -base else base)), type.toUnsigned cutlim)
  else (type.toUnsigned (type.max.tdiv base), type.toUnsigned (type.max.tmod base))

/-- The variables of the loop over the digits. -/
structure Loop where
  totalValue : Nat
  convertedAny : Bool
  outOfRange : Bool
  deriving DecidableEq

def Loop.step (type : IntegerType) (base : Int) (limits : Nat × Nat) (loop : Loop) (digit : Nat) :
    Loop :=
  if loop.outOfRange then loop
  else if loop.totalValue > limits.1 ∨ loop.totalValue = limits.1 ∧ digit > limits.2 then
    { loop with outOfRange := true }
  else
    { loop with
      totalValue := type.toUnsigned (loop.totalValue * base + digit)
      convertedAny := true }

def convertDigits (type : IntegerType) (base : Int) (limits : Nat × Nat) :
    List Int → Loop → Loop × List Int
  | [], loop => (loop, [])
  | c :: rest, loop =>
    match digitValue c with
    | none => (loop, c :: rest)
    | some digit =>
      if digit ≥ type.toUnsigned base then (loop, c :: rest)
      else convertDigits type base limits rest (loop.step type base limits digit)

def Loop.value (type : IntegerType) (neg : Bool) (loop : Loop) : Int :=
  if loop.outOfRange then
    if type.signed then if neg then type.min else type.max else type.max
  else
    type.convert (if neg then type.toUnsigned (-loop.totalValue) else loop.totalValue)

def stringToInteger (type : IntegerType) (nptr : List Int) (baseInt : Int) : Result :=
  let base := type.convert baseInt
  if base < 0 ∨ base = 1 then ⟨0, 0, false⟩
  else
    let (neg, s) := skipSign (nptr.dropWhile isSpace)
    let (base, s) := skipPrefix base s
    let (loop, rest) := convertDigits type base (cutoffs type base neg) s ⟨0, false, false⟩
    ⟨loop.value type neg, if loop.convertedAny then nptr.length - rest.length else 0,
      loop.outOfRange⟩

end Mlibc.StringToInteger
