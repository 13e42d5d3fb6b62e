import Mathlib.Data.Fintype.Pi
import Mlibc.Errno
import Mlibc.NumeralText

/-!
# Addresses as text

The model of `inet_ntop` and `inet_pton`.  A pointer into a text is the rest of the text.
-/

namespace Mlibc.Inet

open IntegerText NumeralText StringToInteger

abbrev InAddr := Fin 4 → UInt8

abbrev In6Addr := Fin 16 → UInt8

inductive Address where
  | inet (addr : InAddr)
  | inet6 (addr : In6Addr)
  | unsupported
  deriving DecidableEq

inductive Family where
  | inet
  | inet6
  | unsupported
  deriving DecidableEq

def colon : Int := 58

def dot : Int := 46

/-- What `inet_ntop` does: it returns the text, fails, or writes behind the buffer. -/
inductive Printed where
  | text (dst : List Int)
  | fails (errno : Errno)
  | overruns
  deriving DecidableEq

def snprintf (size : Nat) (text : List Int) : Option (List Int) :=
  if text.length < size then some text else none

def byteAt (source : In6Addr) (i : Nat) : UInt8 := source (Fin.ofNat 16 i)

local instance fourBytes : NeZero 4 := ⟨by decide⟩

def ntohl (addr : InAddr) : Nat :=
  (addr 0).toNat <<< 24 ||| (addr 1).toNat <<< 16 ||| (addr 2).toNat <<< 8 ||| (addr 3).toNat

def dotted (a b c d : Nat) : List Int :=
  numberText 10 a ++ dot :: (numberText 10 b ++ dot :: (numberText 10 c ++ dot :: numberText 10 d))

def ntopInet (source : InAddr) (size : Nat) : Printed :=
  let addr := ntohl source
  match snprintf size (dotted ((addr >>> 24) &&& 255) ((addr >>> 16) &&& 255)
      ((addr >>> 8) &&& 255) (addr &&& 255)) with
  | some dst => .text dst
  | none => .fails .enospc

def mapped (source : In6Addr) : Bool :=
  (List.range 10).all (fun i => byteAt source i = 0) && byteAt source 10 = 255 &&
    byteAt source 11 = 255

def quartet (source : In6Addr) (i : Nat) : Nat :=
  (byteAt source (i * 2)).toNat <<< 8 ||| (byteAt source (i * 2 + 1)).toNat

/-- The variables of the search for the largest block of zeroed quartets. -/
structure Zeroes where
  curOff : Nat
  curLen : Nat
  maxOff : Nat
  maxLen : Nat
  deriving DecidableEq

def Zeroes.step (source : In6Addr) (zeroes : Zeroes) (i : Nat) : Zeroes :=
  if byteAt source (i * 2) = 0 ∧ byteAt source (i * 2 + 1) = 0 then
    let curLen := zeroes.curLen + 1
    if zeroes.maxLen < curLen ∧ curLen > 1 then
      ⟨zeroes.curOff, curLen, zeroes.curOff, curLen⟩
    else { zeroes with curLen := curLen }
  else { zeroes with curLen := 0, curOff := i + 1 }

def zeroes (source : In6Addr) : Zeroes :=
  (List.range 8).foldl (Zeroes.step source) ⟨0, 0, 0, 0⟩

def put (size : Nat) (dst : List Int) (c : Int) : List Int :=
  if dst.length < size then dst ++ [c] else dst

def finish (size : Nat) (dst : List Int) : Printed :=
  if dst.length < size then .text dst else .overruns

def printQuartets (source : In6Addr) (block : Zeroes) (size : Nat) : Nat → Nat → List Int → Printed
  | 0, _, dst => finish size dst
  | fuel + 1, i, dst =>
    if i < 8 then
      if i = block.maxOff ∧ block.maxLen ≥ 2 then
        printQuartets source block size fuel (i + (block.maxLen - 1) + 1)
          (put size (put size dst colon) colon)
      else
        let dst := if dst ≠ [] ∧ dst.getLast? ≠ some colon then put size dst colon else dst
        match snprintf (size - dst.length) (numberText 16 (quartet source i)) with
        | none => .fails .enospc
        | some text => printQuartets source block size fuel (i + 1) (dst ++ text)
    else finish size dst

def ntopInet6 (source : In6Addr) (size : Nat) : Printed :=
  if mapped source then
    match snprintf size ([colon, colon] ++ numberText 16 65535 ++ [colon] ++
        dotted (byteAt source 12).toNat (byteAt source 13).toNat (byteAt source 14).toNat
          (byteAt source 15).toNat) with
    | some dst => .text dst
    | none => .fails .enospc
  else printQuartets source (zeroes source) size 8 0 []

def inetNtop (src : Address) (size : Nat) : Printed :=
  match src with
  | .inet source => ntopInet source size
  | .inet6 source => ntopInet6 source size
  | .unsupported => .fails .eafnosupport

/-- What `inet_pton` does: it returns 1 and stores the address, returns 0, fails, or reads
behind the terminator. -/
inductive Parsed where
  | stored (address : Address)
  | rejected
  | fails (errno : Errno)
  | overruns
  deriving DecidableEq

inductive Stop where
  | rejected
  | overruns
  deriving DecidableEq

def peek (src : List Int) : Int := src.headD 0

section Parser

variable (long : IntegerType)

def strtol (src : List Int) (base : Nat) : Int × Nat × List Int :=
  let result := stringToInteger long src base
  (result.value, result.endptr, src.drop result.endptr)

/-- One pass of the loop over the numbers with dots.  The pointer is `none` behind the
terminator. -/
def octet (src : Option (List Int)) : Except Stop (Nat × Option (List Int)) :=
  match src with
  | none => .error .overruns
  | some src =>
    if isDigit (peek src) = false then .error .rejected
    else
      let (value, length, rest) := strtol long src 10
      if value > 255 ∨ length > 3 then .error .rejected
      else if peek rest ≠ 0 ∧ peek rest ≠ dot then .error .rejected
      else .ok ((value % 256).toNat, if rest = [] then none else some rest.tail)

def octets : Nat → Option (List Int) → Except Stop (List Nat)
  | 0, _ => .ok []
  | n + 1, src =>
    match octet long src with
    | .error stop => .error stop
    | .ok (value, src) =>
      match octets n src with
      | .error stop => .error stop
      | .ok values => .ok (value :: values)

def htonl (ip : Nat) : InAddr := fun k => UInt8.ofNat (ip >>> (24 - 8 * k.val))

def ptonInet (src : List Int) : Except Stop InAddr :=
  match octets long 4 (some src) with
  | .error stop => .error stop
  | .ok array =>
    .ok (htonl (array.getD 0 0 <<< 24 ||| array.getD 1 0 <<< 16 ||| array.getD 2 0 <<< 8 |||
      array.getD 3 0))

/-- The variables of the loop over the quartets.  Of the array there is the part that is
written. -/
structure Quartets where
  i : Nat
  array : List Nat
  doubleColonOffset : Option Nat
  deriving DecidableEq

def reservedRange (quartets : Quartets) : Bool :=
  if quartets.i ≠ 0 ∧ ((∃ offset ∈ quartets.doubleColonOffset, offset ≠ 0) ∨
      quartets.doubleColonOffset = none) then
    quartets.array.getD 0 0 >>> 8 = 0
  else false

def toWord (value : Int) : Nat := (value % 65536).toNat

/-- One of the four numbers with dots.  The last one may end with anything. -/
def dottedPart (value : Int) (last : Bool) (src : List Int) : Except Stop (Int × List Int) :=
  if isDigit (peek src) = false then .error .rejected
  else
    let (part, length, rest) := strtol long src 10
    if (last = false ∧ peek rest ≠ dot) ∨ part > 255 ∨ length = 0 then .error .rejected
    else if length > 3 ∨ (peek src = 48 ∧ value ≠ 0) then .error .rejected
    else .ok (part, rest)

def dottedQuad (value : Int) (src : List Int) : Except Stop (Nat × Nat × List Int) := do
  let (value0, rest) ← dottedPart long value false src
  let (value1, rest) ← dottedPart long value false rest.tail
  let (value2, rest) ← dottedPart long value false rest.tail
  let (value3, rest) ← dottedPart long value true rest.tail
  return (toWord (value0 * 256 + value1), toWord (value2 * 256 + value3), rest)

def parseQuartets : Nat → Quartets → List Int → List Int → Except Stop (Quartets × List Int)
  | 0, quartets, _, rest => .ok (quartets, rest)
  | fuel + 1, quartets, src, _ =>
    let (value, length, rest) := strtol long src 16
    if value > 65535 ∨ length > 4 then .error .rejected
    else if peek rest ≠ 0 ∧ peek rest ≠ colon ∧ peek rest ≠ dot then .error .rejected
    else if peek rest = dot ∧ reservedRange quartets = true ∧ quartets.i < 7 then
      match dottedQuad long value src with
      | .error stop => .error stop
      | .ok (first, second, rest) =>
        .ok ({ quartets with
          i := quartets.i + 1
          array := quartets.array ++ [first, second] }, rest)
    else if peek rest = colon ∧ peek rest.tail = colon then
      if quartets.doubleColonOffset.isSome then .error .rejected
      else
        parseQuartets fuel ⟨quartets.i + 1, quartets.array ++ [toWord value], some (quartets.i + 1)⟩
          (rest.drop 2) rest
    else if peek rest = colon then
      parseQuartets fuel { quartets with
          i := quartets.i + 1
          array := quartets.array ++ [toWord value] }
        rest.tail rest
    else if peek rest = 0 then
      .ok ({ quartets with array := quartets.array ++ [toWord value] }, rest)
    else .error .rejected

def overwrite (words : List Nat) (start : Nat) (others : List Nat) : List Nat :=
  words.take start ++ others ++ words.drop (start + others.length)

def expand (quartets : Quartets) : Except Stop (List Nat) :=
  match quartets.doubleColonOffset with
  | some offset =>
    let suffix := quartets.i - offset + 1
    if offset + suffix ≥ 8 then .error .rejected
    else
      let words := overwrite (List.replicate 8 0) 0 (quartets.array.take offset)
      .ok (overwrite words (8 - suffix) ((quartets.array.drop offset).take suffix))
  | none => .ok (overwrite (List.replicate 8 0) 0 (quartets.array.take 8))

def wordBytes (words : List Nat) : In6Addr := fun k =>
  UInt8.ofNat (if k.val % 2 = 0 then words.getD (k.val / 2) 0 >>> 8 else words.getD (k.val / 2) 0)

def ptonInet6 (src : List Int) : Except Stop In6Addr :=
  if isHexDigit (peek src) = false ∧ peek src ≠ colon then .error .rejected
  else
    match parseQuartets long 8 ⟨0, [], none⟩ src [] with
    | .error stop => .error stop
    | .ok (quartets, rest) =>
      if peek rest ≠ 0 then .error .rejected
      else if quartets.doubleColonOffset = none ∧ quartets.i < 7 then .error .rejected
      else
        match expand quartets with
        | .error stop => .error stop
        | .ok words => .ok (wordBytes words)

def outcome {α : Type} (address : α → Address) : Except Stop α → Parsed
  | .ok addr => .stored (address addr)
  | .error .rejected => .rejected
  | .error .overruns => .overruns

def inetPton (family : Family) (src : List Int) : Parsed :=
  match family with
  | .inet => outcome .inet (ptonInet long src)
  | .inet6 => outcome .inet6 (ptonInet6 long src)
  | .unsupported => .fails .eafnosupport

end Parser

end Mlibc.Inet
