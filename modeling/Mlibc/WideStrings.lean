import Mlibc.Charcode

/-!
# The conversions between wide and multibyte strings

The functions of `wchar.cpp` and `stdlib.cpp` that convert whole strings.
-/

namespace Mlibc

open List

/-- The returned number, none for `(size_t)-1`, the output buffer, the source pointer, and the
state. -/
structure StringResult (α β : Type) where
  returned : Option Nat
  buffer : List β
  source : Option (List α)
  st : Mbstate
  deriving DecidableEq

def storeUnits {β : Type} (buf units : List β) : List β := units ++ buf.drop units.length

theorem set_storeUnits {β : Type} {buf units : List β} (unit : β)
    (fits : units.length < buf.length) :
    (storeUnits buf units).set units.length unit = storeUnits buf (units ++ [unit]) := by
  have longer : buf.drop units.length ≠ [] := by
    rw [ne_eq, drop_eq_nil_iff]
    omega
  unfold storeUnits
  rw [set_append_right _ _ le_rfl, Nat.sub_self, length_append, ← drop_drop, append_assoc]
  cases behind : buf.drop units.length with
  | nil => exact absurd behind longer
  | cons first rest => rfl

theorem take_storeUnits {β : Type} (buf units more : List β) :
    (storeUnits buf (units ++ more)).take units.length = units := by
  rw [storeUnits, append_assoc, take_left]

def mbLenMax : Nat := 4

namespace CharcodeClass

variable (g : CharcodeClass)

/-- The units of a character that does not fit are stored as far as there is room. -/
def EncodeResult.stored (result : EncodeResult) : List UInt8 :=
  if result.status = .outputOverflow then
    (g.encodeUnit result.nseq (result.wseq.headD 0)).2.written
  else result.nseq.written

def encodeLengthLoop : List UInt32 → Nat → TranscodeStatus × Nat
  | [], n => (.inputExhausted, n)
  | cp :: wseq, n =>
    if cp = 0 then (.nullTerminator, n)
    else
      match g.encodeUnit (.empty mbLenMax) cp with
      | (e, encodeNseq) =>
        if e ≠ .inputExhausted then (e, n)
        else encodeLengthLoop wseq (n + encodeNseq.written.length)

def encodeWtranscodeLength (wseq : List UInt32) (st : Mbstate) : Option (TranscodeStatus × Nat) :=
  if st.progress ≠ 0 then none else some (g.encodeLengthLoop wseq 0)

def decodeLengthLoop : g.DecodeState → List UInt8 → Nat → Option (TranscodeStatus × Nat)
  | ds, [], n => some (if g.progress ds ≠ 0 then .inputUnderflow else .inputExhausted, n)
  | ds, uc :: nseq, n =>
    match g.decodeUnit ds uc with
    | none => none
    | some (e, ds) =>
      if e ≠ .inputExhausted then some (e, n)
      else if g.progress ds ≠ 0 then decodeLengthLoop ds nseq n
      else if g.cpoint ds = 0 then some (.nullTerminator, n)
      else decodeLengthLoop ds nseq (n + 1)

def decodeWtranscodeLength (nseq : List UInt8) (st : Mbstate) : Option (TranscodeStatus × Nat) :=
  g.decodeLengthLoop (g.decodeState st.progress st.cpoint) nseq 0

def wcsrtombs (mbs : Option (List UInt8)) (wcs : List UInt32) (mbLimit : Nat) (st : Mbstate) :
    Option (StringResult UInt32 UInt8) :=
  match mbs with
  | none => do
      let (e, size) ← g.encodeWtranscodeLength wcs st
      if e = .nullTerminator then some ⟨some size, [], some wcs, st⟩
      else if e = .illegalInput ∨ e = .inputUnderflow then some ⟨none, [], some wcs, st⟩
      else none
  | some mbs => do
      let result ← g.encodeWtranscode (.empty mbLimit) wcs st
      let mbs := storeUnits mbs (result.stored g)
      let n := result.nseq.written.length
      if result.status = .nullTerminator then
        some ⟨some n, if n < mbLimit then mbs.set n 0 else mbs, none, .initializer⟩
      else if result.status = .inputUnderflow ∨ result.status = .outputExhausted then
        some ⟨some n, mbs, some result.wseq, st⟩
      else if result.status = .illegalInput then some ⟨none, mbs, some wcs, st⟩
      else none

def wcsnrtombs (mbs : Option (List UInt8)) (wcs : List UInt32) (wcLimit mbLimit : Nat)
    (st : Mbstate) : Option (StringResult UInt32 UInt8) :=
  match mbs with
  | none => do
      let (e, size) ← g.encodeWtranscodeLength (wcs.take wcLimit) st
      if e = .nullTerminator ∨ e = .inputUnderflow ∨ e = .inputExhausted then
        some ⟨some size, [], some wcs, st⟩
      else if e = .illegalInput then some ⟨none, [], some wcs, st⟩
      else none
  | some mbs => do
      let result ← g.encodeWtranscode (.empty mbLimit) (wcs.take wcLimit) st
      let mbs := storeUnits mbs (result.stored g)
      let n := result.nseq.written.length
      if result.status = .nullTerminator then
        some ⟨some n, if n < mbLimit then mbs.set n 0 else mbs, none, .initializer⟩
      else if result.status = .inputUnderflow ∨ result.status = .outputOverflow ∨
          result.status = .inputExhausted ∨ result.status = .outputExhausted then
        some ⟨some n, mbs, some (result.wseq ++ wcs.drop wcLimit), st⟩
      else if result.status = .illegalInput then some ⟨none, mbs, some wcs, st⟩
      else none

def wcstombs (mbString : Option (List UInt8)) (wcString : List UInt32) (maxSize : Nat)
    (wcsrtombsState : Mbstate) : Option (Option Nat × List UInt8 × Mbstate) := do
  let result ← g.wcsrtombs mbString wcString maxSize wcsrtombsState
  some (result.returned, result.buffer, result.st)

def mbsrtowcs (wcs : Option (List UInt32)) (mbs : List UInt8) (wcLimit : Nat) (st : Mbstate) :
    Option (StringResult UInt8 UInt32) :=
  match wcs with
  | none => do
      let (e, size) ← g.decodeWtranscodeLength mbs st
      if e = .nullTerminator then some ⟨some size, [], some mbs, st⟩
      else if e = .illegalInput ∨ e = .inputUnderflow then some ⟨none, [], some mbs, st⟩
      else none
  | some wcs => do
      let result ← g.decodeWtranscode mbs (.empty wcLimit) st
      let wcs := storeUnits wcs result.wseq.written
      let n := result.wseq.written.length
      if result.status = .nullTerminator then
        some ⟨some n, if n < wcLimit then wcs.set n 0 else wcs, none, .initializer⟩
      else if result.status = .inputExhausted ∨ result.status = .outputExhausted then
        some ⟨some n, wcs, some result.nseq, result.st⟩
      else if result.status = .inputUnderflow ∨ result.status = .illegalInput then
        some ⟨none, wcs, some mbs, result.st⟩
      else none

def mbstowcs (wcs : Option (List UInt32)) (mbs : List UInt8) (wcLimit : Nat) :
    Option (Option Nat × List UInt32) :=
  match wcs with
  | none => do
      let (e, size) ← g.decodeWtranscodeLength mbs .initializer
      if e = .nullTerminator ∨ e = .inputExhausted then some (some size, [])
      else if e = .illegalInput ∨ e = .inputUnderflow then some (none, [])
      else none
  | some wcs => do
      let result ← g.decodeWtranscode mbs (.empty wcLimit) .initializer
      let wcs := storeUnits wcs result.wseq.written
      let n := result.wseq.written.length
      if result.status ≠ .nullTerminator ∧ result.status ≠ .outputExhausted then
        if result.status = .inputExhausted then none else some (none, wcs)
      else some (some n, if n < wcLimit then wcs.set n 0 else wcs)

end CharcodeClass

/-- Calls one after the other until the terminator, the end of the buffers or a return of -1. -/
def convertAll {α β : Type} (call : Mbstate → List α → List β → Option (StringResult α β)) :
    Mbstate → List α → List (List β) → Option (Option (List β × Option (List α)))
  | _, src, [] => some (some ([], some src))
  | st, src, buf :: bufs => do
      let result ← call st src buf
      match result.returned, result.source with
      | none, _ => some none
      | some n, none => some (some (result.buffer.take n, none))
      | some n, some src => do
          let rest ← convertAll call result.st src bufs
          some (rest.map fun (units, src) => (result.buffer.take n ++ units, src))

end Mlibc
