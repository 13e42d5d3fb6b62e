import Mlibc.Utf8Characters

/-! # The UTF-8 encoder and decoder as inverses -/

namespace Mlibc

open CharcodeClass List

def utf8Encode : List UInt32 → Option (List UInt8)
  | [] => some []
  | wc :: wseq =>
    match utf8Units wc, utf8Encode wseq with
    | some units, some rest => some (units ++ rest)
    | _, _ => none

theorem utf8Encode_cons {wc : UInt32} {wseq : List UInt32} {bytes : List UInt8}
    (enc : utf8Encode (wc :: wseq) = some bytes) :
    ∃ units rest, utf8Units wc = some units ∧ utf8Encode wseq = some rest ∧
      bytes = units ++ rest := by
  rw [utf8Encode] at enc
  split at enc
  · next units rest unitsEncoded restEncoded =>
    cases enc
    exact ⟨units, rest, unitsEncoded, restEncoded, rfl⟩
  · cases enc

section Encoding

variable {nseq : OutSeq UInt8} {wc : UInt32} {wseq : List UInt32}

theorem utf8EncodeUnit_of_le {units : List UInt8}
    (enc : utf8Units wc = some units) (fits : units.length ≤ nseq.room) :
    utf8EncodeUnit nseq wc =
      (.inputExhausted, ⟨nseq.written ++ units, nseq.room - units.length⟩) := by
  simp only [utf8EncodeUnit, enc, OutSeq.push_of_le nseq units fits]

theorem utf8EncodeUnit_accepted {after : OutSeq UInt8}
    (enc : utf8EncodeUnit nseq wc = (.inputExhausted, after)) :
    ∃ units, utf8Units wc = some units ∧ units.length ≤ nseq.room ∧
      after = ⟨nseq.written ++ units, nseq.room - units.length⟩ := by
  cases unitsEq : utf8Units wc with
  | none => simp [utf8EncodeUnit, unitsEq] at enc
  | some units =>
    by_cases fits : units.length ≤ nseq.room
    · rw [utf8EncodeUnit_of_le unitsEq fits] at enc
      cases enc
      exact ⟨units, rfl, fits, rfl⟩
    have overflow := OutSeq.push_of_lt nseq units (by omega)
    simp only [utf8EncodeUnit, unitsEq] at enc
    split at enc
    · next pushed =>
      rw [pushed] at overflow
      cases overflow
    · cases enc

theorem encodeLoop_of_utf8Encode {bytes : List UInt8}
    (nz : ∀ wc ∈ wseq, wc ≠ 0) (enc : utf8Encode wseq = some bytes)
    (fits : bytes.length ≤ nseq.room) :
    utf8Charcode.encodeLoop nseq nseq wseq =
      some ⟨.inputExhausted, ⟨nseq.written ++ bytes, nseq.room - bytes.length⟩, []⟩ := by
  induction wseq generalizing nseq bytes with
  | nil =>
    cases enc
    simp [encodeLoop]
  | cons wc wseq ih =>
    obtain ⟨units, rest, unitsEncoded, restEncoded, rfl⟩ := utf8Encode_cons enc
    rw [length_append] at fits
    have unitsPositive : 0 < units.length := length_pos_iff.mpr (utf8Units_ne_nil unitsEncoded)
    have hasRoom : nseq.room ≠ 0 := by omega
    let after : OutSeq UInt8 := ⟨nseq.written ++ units, nseq.room - units.length⟩
    have restFits : rest.length ≤ after.room := by
      simp only [after]
      omega
    have tail := ih (fun mem memberMem => nz mem (mem_cons_of_mem wc memberMem))
      restEncoded restFits
    rw [encodeLoop, if_neg hasRoom, if_neg (nz wc (mem_cons_self ..))]
    simp only [utf8EncodeUnit_of_le unitsEncoded (by omega : _ ≤ nseq.room)]
    rw [tail]
    simp [after, Nat.sub_sub]

theorem encodeLoop_accepted {result : EncodeResult}
    (run : utf8Charcode.encodeLoop nseq nseq wseq = some result)
    (acc : result.status = .inputExhausted) :
    ∃ bytes, utf8Encode wseq = some bytes ∧ result.nseq.written = nseq.written ++ bytes := by
  induction wseq generalizing nseq with
  | nil =>
    simp only [encodeLoop, ne_eq, not_true_eq_false, if_false, Option.some.injEq] at run
    subst run
    exact ⟨[], rfl, by simp⟩
  | cons wc wseq ih =>
    rw [encodeLoop] at run
    split_ifs at run
    · cases run
      cases acc
    · cases run
      cases acc
    cases enc : utf8EncodeUnit nseq wc with
    | mk status after =>
      simp only [enc] at run
      split_ifs at run with rejected
      · cases run
        exact absurd acc rejected
      obtain rfl := not_not.mp rejected
      obtain ⟨units, unitsEncoded, -, rfl⟩ := utf8EncodeUnit_accepted enc
      obtain ⟨rest, restEncoded, written⟩ := ih run
      refine ⟨units ++ rest, ?_, by simpa using written⟩
      simp [utf8Encode, unitsEncoded, restEncoded]

end Encoding

section Decoding

variable {st : Mbstate} {wseq : OutSeq UInt32} {wcs : List UInt32} {bytes : List UInt8}

theorem decodeLoop_utf8Encode_append (st : Mbstate) (cpoint : UInt32) (wseq : OutSeq UInt32)
    (nz : ∀ wc ∈ wcs, wc ≠ 0) (legal : ∀ wc ∈ wcs, ¬ IsSurrogate wc)
    (enc : utf8Encode wcs = some bytes) (fits : wcs.length ≤ wseq.room)
    (tail : List UInt8) :
    ∃ last, utf8Charcode.decodeLoop st ⟨0, cpoint⟩ (bytes ++ tail) wseq =
      utf8Charcode.decodeLoop st ⟨0, last⟩ tail ⟨wseq.written ++ wcs, wseq.room - wcs.length⟩ := by
  induction wcs generalizing wseq bytes cpoint with
  | nil =>
    cases enc
    exact ⟨cpoint, by simp⟩
  | cons wc wcs ih =>
    obtain ⟨units, rest, unitsEncoded, restEncoded, rfl⟩ := utf8Encode_cons enc
    rw [length_cons] at fits
    have restFits : wcs.length ≤ (wseq.store wc).room := by
      simp only [OutSeq.store]
      omega
    obtain ⟨last, run⟩ := ih wc (wseq.store wc)
      (fun mem memberMem => nz mem (mem_cons_of_mem wc memberMem))
      (fun mem memberMem => legal mem (mem_cons_of_mem wc memberMem))
      restEncoded restFits
    refine ⟨last, ?_⟩
    rw [append_assoc, decodeLoop_utf8Units cpoint (by omega) unitsEncoded
      (nz wc mem_cons_self) (legal wc mem_cons_self), run]
    simp [OutSeq.store, Nat.sub_sub, add_comm]

theorem decodeLoop_of_surrogate (cpoint : UInt32)
    (nz : ∀ wc ∈ wcs, wc ≠ 0) (surrogate : ∃ wc ∈ wcs, IsSurrogate wc)
    (enc : utf8Encode wcs = some bytes) (fits : wcs.length ≤ wseq.room) :
    ∃ result, utf8Charcode.decodeLoop st ⟨0, cpoint⟩ bytes wseq = some result ∧
      result.status = .illegalInput := by
  induction wcs generalizing wseq bytes cpoint with
  | nil => simp at surrogate
  | cons wc wcs ih =>
    obtain ⟨units, rest, unitsEncoded, restEncoded, rfl⟩ := utf8Encode_cons enc
    rw [length_cons] at fits
    by_cases first : IsSurrogate wc
    · exact decodeLoop_surrogate cpoint (by omega) unitsEncoded first
    have inRest : ∃ mem ∈ wcs, IsSurrogate mem := by
      simpa [first] using surrogate
    have restFits : wcs.length ≤ (wseq.store wc).room := by
      simp only [OutSeq.store]
      omega
    obtain ⟨result, tail, illegal⟩ := ih wc
      (fun mem memberMem => nz mem (mem_cons_of_mem wc memberMem))
      inRest restEncoded restFits
    exact ⟨result, (decodeLoop_utf8Units cpoint (by omega) unitsEncoded
      (nz wc mem_cons_self) first).trans tail, illegal⟩

theorem utf8Encode_of_decodeLoop {cpoint : UInt32} {result : DecodeResult}
    (run : utf8Charcode.decodeLoop st ⟨0, cpoint⟩ bytes wseq = some result)
    (acc : result.status = .inputExhausted) :
    ∃ wcs, utf8Encode wcs = some bytes ∧ (∀ wc ∈ wcs, wc ≠ 0) ∧
      result.wseq.written = wseq.written ++ wcs := by
  induction lengthEq : bytes.length using Nat.strong_induction_on
    generalizing bytes cpoint wseq with
  | _ length ih =>
    rcases decodeLoop_character_accepted run acc with
      ⟨rfl, unchanged⟩ | ⟨wc, units, rest, unitsEncoded, nz, rfl, continues⟩
    · exact ⟨[], rfl, by simp, by simp [unchanged]⟩
    have unitsPositive : 0 < units.length := length_pos_iff.mpr (utf8Units_ne_nil unitsEncoded)
    rw [length_append] at lengthEq
    obtain ⟨wcs, restEncoded, restNonzero, written⟩ := ih rest.length (by omega) continues rfl
    refine ⟨wc :: wcs, ?_, ?_, ?_⟩
    · simp [utf8Encode, unitsEncoded, restEncoded]
    · simpa [nz] using restNonzero
    · simpa [OutSeq.store] using written

end Decoding

/-- An encoded sequence is decoded to itself exactly when it holds no surrogate; and encoding what
the decoder accepts gives the same bytes back. -/
theorem utf8_decode_encode_iff_no_surrogate (wcs : List UInt32) (bytes : List UInt8)
    (nroom wroom : Nat) :
    (∀ enc, (∀ wc ∈ wcs, wc ≠ 0) → 0 < wroom → wcs.length ≤ wroom →
      utf8Charcode.encodeWtranscode (.empty nroom) wcs .initializer = some enc →
      enc.status = .inputExhausted →
      ((∃ dec, utf8Charcode.decodeWtranscode enc.nseq.written
            (.empty wroom) .initializer = some dec ∧
          dec.status = .inputExhausted ∧ dec.wseq.written = wcs) ↔
        ∀ wc ∈ wcs, ¬ IsSurrogate wc)) ∧
    (∀ dec, utf8Charcode.decodeWtranscode bytes (.empty wroom) .initializer = some dec →
      dec.status = .inputExhausted → bytes.length ≤ nroom →
      ∃ enc, utf8Charcode.encodeWtranscode (.empty nroom) dec.wseq.written .initializer = some enc ∧
        enc.status = .inputExhausted ∧ enc.nseq.written = bytes) := by
  constructor
  · intro enc nz wroomPositive fits encodes acc
    obtain ⟨bytes, bytesEncoded, written⟩ := encodeLoop_accepted encodes acc
    have decodes : utf8Charcode.decodeWtranscode enc.nseq.written (.empty wroom) .initializer =
        utf8Charcode.decodeLoop .initializer ⟨0, 0⟩ bytes (.empty wroom) := by
      rw [written, decodeWtranscode, if_neg (by simp only [OutSeq.empty]; omega)]
      rfl
    rw [decodes]
    constructor
    · rintro ⟨dec, run, exhausted, -⟩
      by_contra someSurrogate
      push Not at someSurrogate
      obtain ⟨result, rejected, illegal⟩ := @decodeLoop_of_surrogate
        .initializer (.empty wroom) wcs bytes 0 nz someSurrogate bytesEncoded fits
      rw [rejected] at run
      cases run
      rw [illegal] at exhausted
      cases exhausted
    · intro legal
      obtain ⟨last, run⟩ := decodeLoop_utf8Encode_append .initializer 0 (.empty wroom) nz
        legal bytesEncoded fits []
      rw [append_nil, decodeLoop, if_neg (not_not_intro rfl)] at run
      exact ⟨_, run, rfl, rfl⟩
  · intro dec decodes acc fits
    rw [decodeWtranscode] at decodes
    split_ifs at decodes
    obtain ⟨wcs, bytesEncoded, nz, written⟩ := utf8Encode_of_decodeLoop decodes acc
    rw [written]
    exact ⟨_, encodeLoop_of_utf8Encode nz bytesEncoded fits, rfl, rfl⟩

theorem utf8_decode_encode_euro_emoji : (∃ dec, utf8Charcode.decodeWtranscode
          [0xE2, 0x82, 0xAC, 0xF0, 0x9F, 0x98, 0x80] (.empty 2) .initializer =
          some dec ∧
        dec.status = .inputExhausted ∧
        dec.wseq.written = [0x20AC, 0x1F600]) ∧
      ∃ enc, utf8Charcode.encodeWtranscode (.empty 7) [0x20AC, 0x1F600] .initializer = some enc ∧
        enc.status = .inputExhausted ∧
        enc.nseq.written = [0xE2, 0x82, 0xAC, 0xF0, 0x9F, 0x98, 0x80] := by
  obtain ⟨decodes, encodes⟩ := utf8_decode_encode_iff_no_surrogate [0x20AC, 0x1F600]
    [0xE2, 0x82, 0xAC, 0xF0, 0x9F, 0x98, 0x80] 7 2
  constructor
  · exact (decodes ⟨.inputExhausted, ⟨[0xE2, 0x82, 0xAC, 0xF0, 0x9F, 0x98, 0x80], 0⟩, []⟩
      (by simp) (by decide) (by decide) (by decide) rfl).mpr (by simp [IsSurrogate])
  · exact encodes ⟨.inputExhausted, [], ⟨[0x20AC, 0x1F600], 0⟩, ⟨0, 0, 0x1F600⟩⟩
      (by decide) rfl (by decide)

/-- The encoder accepts surrogates. -/
theorem utf8_surrogate_encoded_not_decoded :
    ¬ ∀ (wcs : List UInt32) (nroom wroom : Nat) (enc : EncodeResult),
      (∀ wc ∈ wcs, wc ≠ 0) → 0 < wroom → wcs.length ≤ wroom →
      utf8Charcode.encodeWtranscode (.empty nroom) wcs .initializer = some enc →
      enc.status = .inputExhausted →
      ∃ dec, utf8Charcode.decodeWtranscode enc.nseq.written (.empty wroom) .initializer = some dec ∧
        dec.status = .inputExhausted ∧ dec.wseq.written = wcs := by
  intro roundTrip
  obtain ⟨dec, decodes, exhausted, -⟩ := roundTrip [0xD800] 3 1
    ⟨.inputExhausted, ⟨[0xED, 0xA0, 0x80], 0⟩, []⟩
    (by simp) (by decide) (by decide) (by decide) rfl
  cases decodes
  cases exhausted

end Mlibc
