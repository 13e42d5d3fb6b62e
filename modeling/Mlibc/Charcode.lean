import Mathlib.Data.List.Basic
import Mathlib.Data.Nat.Bitwise

/-!
# Character codes

The transcoding layer of `options/internal/generic/charcode.cpp`.
-/

namespace Mlibc

/-- `transcode_status`. -/
inductive TranscodeStatus where
  | nullTerminator
  | illegalInput
  | inputUnderflow
  | outputOverflow
  | inputExhausted
  | outputExhausted
  deriving DecidableEq

/-- `__mlibc_mbstate`. -/
structure Mbstate where
  progress : Nat
  shift : Nat
  cpoint : UInt32
  deriving DecidableEq

def Mbstate.initializer : Mbstate := ⟨0, 0, 0⟩

/-- An output sequence: the units written, and the room that is left. -/
structure OutSeq (α : Type) where
  written : List α
  room : Nat
  deriving DecidableEq

namespace OutSeq

variable {α : Type}

def empty (room : Nat) : OutSeq α := ⟨[], room⟩

def store (seq : OutSeq α) (unit : α) : OutSeq α :=
  ⟨seq.written ++ [unit], seq.room - 1⟩

/-- The `push` helper of the UTF-8 encoder: were all units stored? -/
def push (seq : OutSeq α) : List α → Bool × OutSeq α
  | [] => (true, seq)
  | unit :: units =>
    if seq.room = 0 then (false, seq) else (seq.store unit).push units

theorem push_of_le (seq : OutSeq α) (units : List α) (fits : units.length ≤ seq.room) :
    seq.push units = (true, ⟨seq.written ++ units, seq.room - units.length⟩) := by
  induction units generalizing seq with
  | nil => simp [push]
  | cons unit units ih =>
    have hasRoom : seq.room ≠ 0 := by
      simp only [List.length_cons] at fits
      omega
    rw [push, if_neg hasRoom, ih]
    · simp [store, Nat.sub_sub, add_comm]
    · simp only [List.length_cons] at fits
      simp only [store]
      omega

theorem push_of_lt (seq : OutSeq α) (units : List α)
    (overflow : seq.room < units.length) : (seq.push units).1 = false := by
  induction units generalizing seq with
  | nil => simp at overflow
  | cons unit units ih =>
    by_cases full : seq.room = 0
    · simp [push, full]
    rw [push, if_neg full]
    apply ih
    simp only [List.length_cons] at overflow
    simp only [store]
    omega

end OutSeq

/-- The template parameter of `polymorphic_charcode_adapter`: a decoder state, its `operator()`, and
the one of the encoder. -/
structure CharcodeClass where
  DecodeState : Type
  decodeState : Nat → UInt32 → DecodeState
  progress : DecodeState → Nat
  cpoint : DecodeState → UInt32
  decodeUnit : DecodeState → UInt8 → Option (TranscodeStatus × DecodeState)
  encodeUnit : OutSeq UInt8 → UInt32 → TranscodeStatus × OutSeq UInt8

abbrev asciiCharcode : CharcodeClass where
  DecodeState := UInt32
  decodeState _ cpoint := cpoint
  progress _ := 0
  cpoint s := s
  decodeUnit _ uc := some (.inputExhausted, uc.toUInt32)
  encodeUnit nseq wc :=
    if wc > 0xFF then (.illegalInput, nseq)
    else if nseq.room = 0 then (.outputOverflow, nseq)
    else (.inputExhausted, nseq.store wc.toUInt8)

/-- `utf8_charcode::decode_state`. -/
structure Utf8DecodeState where
  progress : Nat
  cpoint : UInt32
  deriving DecidableEq

/-- `utf8_charcode::decode_state::operator()`.  The unit is consumed exactly
when the status is `inputExhausted`. -/
def Utf8DecodeState.decodeUnit (ds : Utf8DecodeState) (uc : UInt8) :
    Option (TranscodeStatus × Utf8DecodeState) :=
  if ds.progress = 0 then
    if uc &&& 0b10000000 = 0 then
      some (.inputExhausted, { ds with cpoint := uc.toUInt32 })
    else if uc &&& 0b11100000 = 0b11000000 then
      -- Overlong encodings.
      if uc < 0xC2 then some (.illegalInput, ds)
      else some (.inputExhausted, ⟨1, (uc &&& 0b11111).toUInt32⟩)
    else if uc &&& 0b11110000 = 0b11100000 then
      some (.inputExhausted, ⟨2, (uc &&& 0b1111).toUInt32⟩)
    else if uc &&& 0b11111000 = 0b11110000 then
      -- Sequences above U+10FFFF.
      if uc ≥ 0xF5 then some (.illegalInput, ds)
      else some (.inputExhausted, ⟨3, (uc &&& 0b111).toUInt32⟩)
    else if uc &&& 0b11000000 = 0b10000000 ∨ uc &&& 0b11111000 = 0b11111000 then
      some (.illegalInput, ds)
    else none
  else if uc &&& 0b11000000 = 0b10000000 then
    -- Overlong 3-byte encodings, then surrogates.
    if ds.progress = 2 ∧ ds.cpoint = 0 ∧ uc < 0xA0 then some (.illegalInput, ds)
    else if ds.progress = 2 ∧ ds.cpoint = 0x0D ∧ uc ≥ 0xA0 then
      some (.illegalInput, ds)
    -- Overlong 4-byte encodings, then sequences above U+10FFFF.
    else if ds.progress = 3 ∧ ds.cpoint = 0 ∧ uc < 0x90 then
      some (.illegalInput, ds)
    else if ds.progress = 3 ∧ ds.cpoint = 4 ∧ uc ≥ 0x90 then
      some (.illegalInput, ds)
    else
      some (.inputExhausted, ⟨ds.progress - 1, (ds.cpoint <<< 6) ||| (uc &&& 0x3F).toUInt32⟩)
  else some (.illegalInput, ds)

def utf8Cont (val : UInt32) : UInt8 := (0x80 ||| (val &&& 0x3F)).toUInt8

/-- The array that `utf8_charcode::encode_state` pushes for a code point, or
`none` for a code point that it rejects. -/
def utf8Units (wc : UInt32) : Option (List UInt8) :=
  if wc ≤ 0x7F then some [wc.toUInt8]
  else if wc ≤ 0x7FF then
    some [((0xC0 : UInt32) ||| (wc >>> 6)).toUInt8, utf8Cont wc]
  else if wc ≤ 0xFFFF then
    some [((0xE0 : UInt32) ||| (wc >>> 12)).toUInt8, utf8Cont (wc >>> 6), utf8Cont wc]
  else if wc ≤ 0x10FFFF then
    some [((0xF0 : UInt32) ||| (wc >>> 18)).toUInt8, utf8Cont (wc >>> 12),
      utf8Cont (wc >>> 6), utf8Cont wc]
  else none

def utf8EncodeUnit (nseq : OutSeq UInt8) (wc : UInt32) : TranscodeStatus × OutSeq UInt8 :=
  match utf8Units wc with
  | none => (.illegalInput, nseq)
  | some units =>
    match nseq.push units with
    | (true, nseq) => (.inputExhausted, nseq)
    | (false, nseq) => (.outputOverflow, nseq)

abbrev utf8Charcode : CharcodeClass where
  DecodeState := Utf8DecodeState
  decodeState progress cpoint := ⟨progress, cpoint⟩
  progress := Utf8DecodeState.progress
  cpoint := Utf8DecodeState.cpoint
  decodeUnit := Utf8DecodeState.decodeUnit
  encodeUnit := utf8EncodeUnit

namespace CharcodeClass

variable (g : CharcodeClass)

/-- What a call of `decode_wtranscode` leaves behind. -/
structure DecodeResult where
  status : TranscodeStatus
  nseq : List UInt8
  wseq : OutSeq UInt32
  st : Mbstate
  deriving DecidableEq

/-- The loop of `decode_wtranscode` from the decoder state `ds` on, with the
code behind the loop. -/
def decodeLoop (st : Mbstate) : g.DecodeState → List UInt8 → OutSeq UInt32 → Option DecodeResult
  | ds, [], wseq =>
    let st := { st with cpoint := g.cpoint ds, progress := g.progress ds }
    if g.progress ds ≠ 0 then some ⟨.inputUnderflow, [], wseq, st⟩
    else some ⟨.inputExhausted, [], wseq, st⟩
  | ds, uc :: nseq, wseq =>
    if wseq.room = 0 then
      let st := { st with cpoint := g.cpoint ds, progress := g.progress ds }
      if g.progress ds ≠ 0 then some ⟨.inputUnderflow, uc :: nseq, wseq, st⟩
      else some ⟨.outputExhausted, uc :: nseq, wseq, st⟩
    else
      match g.decodeUnit ds uc with
      | none => none
      | some (e, ds) =>
        if e ≠ .inputExhausted then some ⟨e, uc :: nseq, wseq, st⟩
        else if g.progress ds ≠ 0 then decodeLoop st ds nseq wseq
        else if g.cpoint ds = 0 then some ⟨.nullTerminator, nseq, wseq, st⟩
        else decodeLoop st ds nseq (wseq.store (g.cpoint ds))

section DecodeLoop

variable {g} {st : Mbstate} {ds next : g.DecodeState} {uc : UInt8}
  {nseq : List UInt8} {wseq : OutSeq UInt32}

section

variable (hasRoom : wseq.room ≠ 0) (dec : g.decodeUnit ds uc = some (.inputExhausted, next))

include hasRoom dec

theorem decodeLoop_continue (inside : g.progress next ≠ 0) :
    g.decodeLoop st ds (uc :: nseq) wseq = g.decodeLoop st next nseq wseq := by
  rw [decodeLoop, if_neg hasRoom, dec]
  simp [inside]

theorem decodeLoop_finish (finished : g.progress next = 0) (nz : g.cpoint next ≠ 0) :
    g.decodeLoop st ds (uc :: nseq) wseq =
      g.decodeLoop st next nseq (wseq.store (g.cpoint next)) := by
  rw [decodeLoop, if_neg hasRoom, dec]
  simp [finished, nz]

end

theorem decodeLoop_illegal (hasRoom : wseq.room ≠ 0)
    (dec : g.decodeUnit ds uc = some (.illegalInput, next)) :
    g.decodeLoop st ds (uc :: nseq) wseq = some ⟨.illegalInput, uc :: nseq, wseq, st⟩ := by
  rw [decodeLoop, if_neg hasRoom, dec]
  simp

variable {result : DecodeResult}

theorem decodeLoop_nil_accepted (run : g.decodeLoop st ds [] wseq = some result)
    (acc : result.status = .inputExhausted) :
    g.progress ds = 0 ∧ result.wseq = wseq := by
  rw [decodeLoop] at run
  by_cases inside : g.progress ds = 0
  · rw [if_neg (not_not.mpr inside)] at run
    cases run
    exact ⟨inside, rfl⟩
  · rw [if_pos inside] at run
    cases run
    cases acc

theorem decodeLoop_cons_accepted (run : g.decodeLoop st ds (uc :: nseq) wseq = some result)
    (acc : result.status = .inputExhausted) :
    wseq.room ≠ 0 ∧ ∃ next, g.decodeUnit ds uc = some (.inputExhausted, next) ∧
        ((g.progress next ≠ 0 ∧ g.decodeLoop st next nseq wseq = some result) ∨
          (g.progress next = 0 ∧ g.cpoint next ≠ 0 ∧
            g.decodeLoop st next nseq (wseq.store (g.cpoint next)) = some result)) := by
  rw [decodeLoop] at run
  by_cases full : wseq.room = 0
  · split_ifs at run <;> (cases run; cases acc)
  rw [if_neg full] at run
  refine ⟨full, ?_⟩
  cases dec : g.decodeUnit ds uc with
  | none => simp [dec] at run
  | some outcome =>
    obtain ⟨status, next⟩ := outcome
    simp only [dec] at run
    split_ifs at run with rejected inside nul
    · cases run
      exact absurd acc rejected
    · obtain rfl := not_not.mp rejected
      exact ⟨next, rfl, .inl ⟨inside, run⟩⟩
    · cases run
      cases acc
    · obtain rfl := not_not.mp rejected
      exact ⟨next, rfl, .inr ⟨not_not.mp inside, nul, run⟩⟩

end DecodeLoop

def decodeWtranscode (nseq : List UInt8) (wseq : OutSeq UInt32)
    (st : Mbstate) : Option DecodeResult :=
  if wseq.room = 0 then none
  else g.decodeLoop st (g.decodeState st.progress st.cpoint) nseq wseq

/-- What a call of `encode_wtranscode` leaves behind. -/
structure EncodeResult where
  status : TranscodeStatus
  nseq : OutSeq UInt8
  wseq : List UInt32
  deriving DecidableEq

/-- The loop of `encode_wtranscode`.  `nseq` is committed, `encodeNseq` the one the encoder writes
to. -/
def encodeLoop : OutSeq UInt8 → OutSeq UInt8 → List UInt32 → Option EncodeResult
  | nseq, encodeNseq, [] =>
    if encodeNseq ≠ nseq then none else some ⟨.inputExhausted, nseq, []⟩
  | nseq, encodeNseq, cp :: wseq =>
    if encodeNseq.room = 0 then
      if encodeNseq ≠ nseq then none
      else some ⟨.outputExhausted, nseq, cp :: wseq⟩
    else if cp = 0 then some ⟨.nullTerminator, nseq, cp :: wseq⟩
    else
      match g.encodeUnit encodeNseq cp with
      | (e, encodeNseq) =>
        if e ≠ .inputExhausted then some ⟨e, nseq, cp :: wseq⟩
        else encodeLoop encodeNseq encodeNseq wseq

def encodeWtranscode (nseq : OutSeq UInt8) (wseq : List UInt32)
    (st : Mbstate) : Option EncodeResult :=
  if st.progress ≠ 0 then none else g.encodeLoop nseq nseq wseq

end CharcodeClass

end Mlibc
