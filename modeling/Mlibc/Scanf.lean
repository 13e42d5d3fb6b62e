import Mlibc.Charcode
import Mlibc.StringToIntegerRange

/-!
# Formatted input

The model of `do_scanf` on a text.  What it looks at behind the end of the text is the terminator.
-/

namespace Mlibc.Scanf

open IntegerText

inductive LengthModifier where
  | char
  | short
  | int
  | intmax
  | long
  | longLong
  | ptrdiff
  | size
  deriving DecidableEq

def LengthModifier.bits (wordBits : Nat) : LengthModifier → Nat
  | .char => 8
  | .short => 16
  | .int => 32
  | .intmax => 64
  | .long => wordBits
  | .longLong => 64
  | .ptrdiff => wordBits
  | .size => wordBits

/-- What a conversion stores. -/
inductive Store where
  | int (bits value : Nat)
  | bytes (content : List UInt8)
  | wide (content : List UInt32)
  deriving DecidableEq

/-- A directive: whether nothing is stored, the width or zero, the type and the conversion. -/
structure Directive where
  suppressed : Bool
  width : Nat
  type : LengthModifier
  conversion : Int
  deriving DecidableEq

/-- What a directive leads to.  In each case there is the rest of the text. -/
inductive Outcome where
  | matched (rest : List Int) (store : Option Store)
  | noMatch (rest : List Int)
  | atEnd (rest : List Int)
  | ensureFails
  | unmodelled
  deriving DecidableEq

/-- What `do_scanf` does: it returns with a rest of the text, after some stores. -/
inductive Result where
  | returns (result : Int) (rest : List Int) (stores : List Store)
  | ensureFails
  | undefined
  | unmodelled
  deriving DecidableEq

def lookAhead (text : List Int) : Int := text.headD 0

def tolower (c : Int) : Int := if isUpper c then c + 32 else c

def readWidth : Nat → List Int → Option (Nat × List Int)
  | width, [] => some (width, [])
  | width, c :: fmt =>
    if isDigit c then
      if width * 10 + (c - 48).toNat < 2 ^ 31 then readWidth (width * 10 + (c - 48).toNat) fmt
      else none
    else some (width, c :: fmt)

def readModifier : List Int → LengthModifier × List Int
  | 104 :: 104 :: fmt => (.char, fmt)
  | 104 :: fmt => (.short, fmt)
  | 106 :: fmt => (.intmax, fmt)
  | 108 :: 108 :: fmt => (.longLong, fmt)
  | 108 :: fmt => (.long, fmt)
  | 76 :: fmt => (.longLong, fmt)
  | 113 :: fmt => (.longLong, fmt)
  | 116 :: fmt => (.ptrdiff, fmt)
  | 122 :: fmt => (.size, fmt)
  | fmt => (.int, fmt)

/-- The directive behind a percent sign, without numeric separators and allocated buffers. -/
def readDirective (fmt : List Int) : Except Result (Directive × List Int) :=
  if lookAhead fmt = 39 ∨ lookAhead fmt = 109 then .error .unmodelled
  else
    let suppressed := decide (lookAhead fmt = 42)
    match if suppressed then some (0, fmt.tail) else readWidth 0 fmt with
    | none => .error .undefined
    | some (width, fmt) =>
      let (type, fmt) := readModifier fmt
      match fmt with
      | [] => .error .unmodelled
      | conversion :: fmt => .ok (⟨suppressed, width, type, conversion⟩, fmt)

/-- A loop over digits, up to a width: the `unsigned long long` total and the rest of the text. -/
def readDigits (base : Nat) : Option Nat → Nat → List Int → Nat × List Int
  | _, res, [] => (res, [])
  | limit, res, c :: text =>
    if limit = some 0 then (res, c :: text)
    else
      match digitValue c with
      | none => (res, c :: text)
      | some digit =>
        if digit < base then
          readDigits base (limit.map (· - 1)) ((res * base + digit) % 2 ^ 64) text
        else (res, c :: text)

def readSign (text : List Int) : Bool × List Int :=
  if lookAhead text = 45 then (true, text.tail)
  else if lookAhead text = 43 then (false, text.tail)
  else (false, text)

def storeInt (wordBits : Nat) (directive : Directive) (isNegative : Bool) (res : Nat) :
    Option Store :=
  if directive.suppressed then none
  else
    let i : Int := if isNegative then -(res : Int) % 2 ^ 64 else res
    some (.int (directive.type.bits wordBits) (i % 2 ^ directive.type.bits wordBits).toNat)

def scanDigits (wordBits : Nat) (directive : Directive) (isNegative : Bool) (base : Nat)
    (required : Bool) (text : List Int) : Outcome :=
  let (res, rest) := readDigits base none 0 text
  if required = true ∧ rest.length = text.length then .noMatch rest
  else .matched rest (storeInt wordBits directive isNegative res)

def scanDecimal (wordBits : Nat) (directive : Directive) (text : List Int) : Outcome :=
  if lookAhead text = 0 then .atEnd text
  else
    let (isNegative, text) := readSign text
    if directive.conversion = 105 ∧ lookAhead text = 48 then
      let text := text.tail
      if tolower (lookAhead text) = 120 then
        scanDigits wordBits directive isNegative 16 true text.tail
      else if tolower (lookAhead text) = 98 then
        scanDigits wordBits directive isNegative 2 true text.tail
      else scanDigits wordBits directive isNegative 8 false text
    else scanDigits wordBits directive isNegative 10 true text

def scanOctal (wordBits : Nat) (directive : Directive) (text : List Int) : Outcome :=
  if lookAhead text = 0 then .atEnd text
  else
    let (isNegative, text) := readSign text
    scanDigits wordBits directive isNegative 8 true text

def within (width consumed : Nat) : Bool := width = 0 || consumed < width

def scanHexadecimal (wordBits : Nat) (directive : Directive) (text : List Int) : Outcome :=
  if lookAhead text = 0 then .atEnd text
  else
    let (isNegative, afterSign) := readSign text
    let consumed := text.length - afterSign.length
    let (counted, consumed, behind) :=
      if lookAhead afterSign = 48 ∧ within directive.width consumed = true then
        if tolower (lookAhead afterSign.tail) = 120 ∧
            within directive.width (consumed + 1) = true then
          (0, consumed + 2, afterSign.tail.tail)
        else (1, consumed + 1, afterSign.tail)
      else (0, consumed, afterSign)
    let limit := if directive.width = 0 then none else some (directive.width - consumed)
    let (res, rest) := readDigits 16 limit 0 behind
    if counted + (behind.length - rest.length) = 0 then .noMatch rest
    else .matched rest (storeInt wordBits directive isNegative res)

section Characters

variable (charcode : CharcodeClass)

/-- `wcrtomb` with the initial state; a failed `__ensure` is the outer `none`. -/
def wcrtomb (wc : UInt32) : Option (Option (List UInt8)) :=
  match charcode.encodeWtranscode (OutSeq.empty 4) [wc] Mbstate.initializer with
  | none => none
  | some result =>
    match result.status with
    | .inputExhausted => some (some result.nseq.written)
    | .nullTerminator => some (some [0])
    | .illegalInput => some none
    | _ => none

/-- The bytes that `append_to_buffer` adds for a character that is not the terminator, unless an
`__ensure` fails. -/
def charBytes (c : Int) : Option (List UInt8) :=
  match wcrtomb charcode (UInt32.ofInt c) with
  | some (some bytes) => some bytes
  | _ => none

def readBytes (acc : Int → Bool) (width : Option Nat) :
    Nat → List Int → Option (List UInt8 × List Int)
  | _, [] => some ([], [])
  | count, c :: text =>
    if acc c = false ∨ (∃ limit ∈ width, limit ≤ count) then some ([], c :: text)
    else
      match charBytes charcode c with
      | none => none
      | some bytes =>
        match readBytes acc width (count + bytes.length) text with
        | none => none
        | some (more, rest) => some (bytes ++ more, rest)

def readWide (acc : Int → Bool) (width : Option Nat) : Nat → List Int → List UInt32 × List Int
  | _, [] => ([], [])
  | count, c :: text =>
    if acc c = false ∨ (∃ limit ∈ width, limit ≤ count) then ([], c :: text)
    else
      let (more, rest) := readWide acc width (count + 1) text
      (UInt32.ofInt c :: more, rest)

/-- The conversions `%s` and `%c`, where only the former has a terminator and requires a
character. -/
def scanCharacters (directive : Directive) (acc : Int → Bool) (width : Option Nat)
    (terminated : Bool) (text : List Int) : Outcome :=
  if lookAhead text = 0 then .atEnd text
  else if directive.type = .long then
    let (content, rest) := readWide acc width 0 text
    if terminated = true ∧ content = [] then .noMatch rest
    else
      let content := content ++ if terminated then [0] else []
      .matched rest (if directive.suppressed then none else some (.wide content))
  else
    match readBytes charcode acc width 0 text with
    | none => .ensureFails
    | some (content, rest) =>
      if terminated = true ∧ content = [] then .noMatch rest
      else
        let content := content ++ if terminated then [0] else []
        .matched rest (if directive.suppressed then none else some (.bytes content))

end Characters

def storeConsumed (wordBits : Nat) (directive : Directive) (consumed : Nat) : Option Store :=
  if directive.suppressed then none
  else
    some (.int (directive.type.bits wordBits) (consumed % 2 ^ directive.type.bits wordBits))

section Loop

variable (charcode : CharcodeClass) (isspace : Int → Bool) (wordBits : Nat)

def scanDirective (directive : Directive) (text : List Int) : Outcome :=
  if directive.conversion = 99 then
    scanCharacters charcode directive (fun _ => true)
      (some (if directive.width = 0 then 1 else directive.width)) false text
  else
    let text := text.dropWhile isspace
    if directive.conversion = 100 ∨ directive.conversion = 117 ∨ directive.conversion = 105 then
      scanDecimal wordBits directive text
    else if directive.conversion = 111 then scanOctal wordBits directive text
    else if directive.conversion = 120 ∨ directive.conversion = 88 then
      scanHexadecimal wordBits directive text
    else if directive.conversion = 115 then
      scanCharacters charcode directive (fun c => !isspace c)
        (if directive.width = 0 then none else some directive.width) true text
    else .unmodelled

def doScanfLoop (input : List Int) : Nat → List Int → List Int → Nat → List Store → Result
  | 0, _, text, matchCount, stores => .returns matchCount text stores
  | passes + 1, fmt, text, matchCount, stores =>
    match fmt with
    | [] => .returns matchCount text stores
    | c :: fmt =>
      if isspace c then
        doScanfLoop input passes (fmt.dropWhile isspace) (text.dropWhile isspace) matchCount stores
      else if c ≠ 37 ∨ lookAhead fmt = 37 then
        let literal := if c = 37 then 37 else c
        let fmt := if c = 37 then fmt.tail else fmt
        if text = [] then .returns (if matchCount = 0 then -1 else matchCount) [] stores
        else if lookAhead text ≠ literal then .returns matchCount text.tail stores
        else doScanfLoop input passes fmt text.tail matchCount stores
      else
        match readDirective fmt with
        | .error result => result
        | .ok (directive, fmt) =>
          if directive.conversion = 110 then
            doScanfLoop input passes fmt text matchCount
              (stores ++ (storeConsumed wordBits directive (input.length - text.length)).toList)
          else
            match scanDirective charcode isspace wordBits directive text with
            | .matched rest store =>
              doScanfLoop input passes fmt rest
                (if directive.suppressed then matchCount else matchCount + 1)
                (stores ++ store.toList)
            | .noMatch rest => .returns matchCount rest stores
            | .atEnd rest =>
              .returns (if matchCount = 0 then -1 else matchCount) rest stores
            | .ensureFails => .ensureFails
            | .unmodelled => .unmodelled

def vsscanf (buf format : List Int) : Result :=
  doScanfLoop charcode isspace wordBits buf format.length format buf 0 []

end Loop

end Mlibc.Scanf
