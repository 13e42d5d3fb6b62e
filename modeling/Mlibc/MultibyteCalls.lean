import Mlibc.Utf8RoundTrip

/-!
# The calls that decode one character

The functions `mbrtowc`, `mblen` and `mbtowc`, with the conversion states that they keep.
-/

namespace Mlibc

open CharcodeClass Utf8DecodeState List

/-- The status of the decoder, the bytes that it consumed, the wide character and the state. -/
def CharcodeClass.decodeOne (g : CharcodeClass) (mbs : List UInt8) (st : Mbstate) :
    Option (TranscodeStatus × Int × Option UInt32 × Mbstate) :=
  (g.decodeWtranscode mbs (.empty 1) st).map fun ⟨status, nseq, wseq, st⟩ =>
    (status, mbs.length - nseq.length, wseq.written.head?, st)

/-- The value returned, the wide character that is stored if any, and the state. -/
def CharcodeClass.mbrtowc (g : CharcodeClass) (mbs : Option (List UInt8)) (st : Mbstate) :
    Option (Int × Option UInt32 × Mbstate) :=
  match mbs with
  | none => some (0, none, .initializer)
  | some mbs =>
    (g.decodeOne mbs st).bind fun (status, consumed, wc, st) =>
      match status with
      | .inputExhausted | .outputExhausted => some (consumed, wc, st)
      | .nullTerminator => some (0, some 0, .initializer)
      | .inputUnderflow => some (-2, wc, st)
      | .illegalInput => some (-1, wc, st)
      | .outputOverflow => none

def Mbstate.mbsinit (st : Mbstate) : Prop := st.progress = 0 ∧ st.shift = 0

/-- The chunks are given to `mbrtowc` in turn, what it leaves of a chunk again. -/
def convertChunks : Nat → Mbstate → List (List UInt8) → Option (List UInt32 × Int × Mbstate)
  | _, st, [] => some ([], 0, st)
  | 0, _, _ :: _ => none
  | fuel + 1, st, chunk :: chunks =>
    (utf8Charcode.mbrtowc (some chunk) st).bind fun (ret, wc, st) =>
      if ret = -2 then
        (convertChunks fuel st chunks).map fun (wcs, total, st) => (wcs, chunk.length + total, st)
      else if 0 < ret then
        (convertChunks fuel st ((chunk.drop ret.toNat :: chunks).filter (!·.isEmpty))).map
          fun (wcs, total, st) => (wc.toList ++ wcs, ret + total, st)
      else none

structure Mbstates where
  mblen : Mbstate
  mbtowc : Mbstate

def Mbstates.fresh : Mbstates := ⟨.initializer, .initializer⟩

/-- The string is given by the memory from its pointer on, or it is the null pointer. -/
def mblen (mbs : Option (List UInt8)) (limit : Nat) (sts : Mbstates) : Option (Int × Mbstates) :=
  match mbs with
  | none => some (0, { sts with mblen := .initializer })
  | some mbs =>
    (utf8Charcode.decodeOne (mbs.take limit) sts.mblen).bind fun (status, consumed, _, st) =>
      match status with
      | .inputExhausted | .outputExhausted => some (consumed, { sts with mblen := st })
      | .nullTerminator => some (0, { sts with mblen := st })
      | .illegalInput | .inputUnderflow => some (-1, { sts with mblen := st })
      | .outputOverflow => none

def mbCurMax : Nat := 4

def mbtowc (mb : Option (List UInt8)) (maxSize : Nat) (sts : Mbstates) :
    Option (Int × Option UInt32 × Mbstates) :=
  match mb with
  | none => some (0, none, { sts with mblen := .initializer })
  | some mb =>
    if mb.head? = some 0 then some (0, some 0, sts)
    else if maxSize = 0 then some (-1, none, sts)
    else
      (utf8Charcode.decodeOne (mb.take (min maxSize mbCurMax)) sts.mbtowc).bind
        fun (status, consumed, wc, st) =>
          match status with
          | .outputOverflow => none
          | .illegalInput => some (-1, wc, { sts with mbtowc := st })
          | _ => some (consumed, wc, { sts with mbtowc := st })

/-- What the calls of `mbtowc` return and store. -/
def mbtowcAll (sts : Mbstates) :
    List (Option (List UInt8) × Nat) → Option (List (Int × Option UInt32))
  | [] => some []
  | (mb, maxSize) :: calls =>
    (mbtowc mb maxSize sts).bind fun (ret, wc, sts) => (mbtowcAll sts calls).map ((ret, wc) :: ·)

/-! ### One character -/

variable {ds : Utf8DecodeState} {units chunk more bytes win : List UInt8} {wc : UInt32}
  {wcs : List UInt32} {chunks : List (List UInt8)}

def saved (ds : Utf8DecodeState) : Mbstate := ⟨ds.progress, 0, ds.cpoint⟩

theorem decodeOne_read (inside : ds.Inside) (reads : ds.Reads units wc) (nz : wc ≠ 0)
    (rest : List UInt8) : ∃ status, (status = .inputExhausted ∨ status = .outputExhausted) ∧
      utf8Charcode.decodeOne (units ++ rest) (saved ds) =
        some (status, (units.length : Int), some wc, saved ⟨0, wc⟩) := by
  have dec : utf8Charcode.decodeWtranscode (units ++ rest) (.empty 1) (saved ds) =
      utf8Charcode.decodeLoop (saved ds) ⟨0, wc⟩ rest ⟨[wc], 0⟩ :=
    decodeLoop_read one_ne_zero inside reads nz
  simp only [decodeOne, dec]
  cases rest with
  | nil => exact ⟨.inputExhausted, .inl rfl, by simp [decodeLoop, saved]⟩
  | cons uc rest => exact ⟨.outputExhausted, .inr rfl, by simp [decodeLoop, saved]⟩

theorem decodeOne_cut (inside : ds.Inside) (reads : ds.Reads (chunk ++ more) wc)
    (ne : chunk ≠ []) (cut : more ≠ []) :
    ∃ next : Utf8DecodeState, next.Inside ∧ next.Reads more wc ∧
      utf8Charcode.decodeOne chunk (saved ds) =
        some (.inputUnderflow, (chunk.length : Int), none, saved next) := by
  obtain ⟨next, inside, reads, run⟩ := decodeLoop_cut inside reads ne cut (saved ds)
    (show (OutSeq.empty 1).room ≠ 0 from one_ne_zero)
  have dec : utf8Charcode.decodeWtranscode chunk (.empty 1) (saved ds) = _ := run
  refine ⟨next, inside, reads, ?_⟩
  rw [decodeOne, dec]
  simp [saved, OutSeq.empty]

/-! ### Chunks -/

/-- What is still to be read from a state on. -/
inductive Upcoming (ds : Utf8DecodeState) : List UInt32 → List UInt8 → Prop
  | nil (between : ds.progress = 0) : Upcoming ds [] []
  | cons {wc : UInt32} {wcs : List UInt32} {units rest : List UInt8} (reads : ds.Reads units wc)
      (isText : IsText wcs rest) : Upcoming ds (wc :: wcs) (units ++ rest)

theorem upcoming_of_isText (isText : IsText wcs bytes) : Upcoming ⟨0, wc⟩ wcs bytes := by
  cases isText with
  | nil => exact .nil rfl
  | cons isChar isText => exact .cons isChar isText

theorem Upcoming.of_nil (upcoming : Upcoming ds wcs []) : ds.progress = 0 ∧ wcs = [] := by
  generalize ended : [] = bytes at upcoming
  cases upcoming with
  | nil between => exact ⟨between, rfl⟩
  | cons reads isText =>
    obtain ⟨rfl, -⟩ := append_eq_nil_iff.mp ended.symm
    exact absurd reads not_reads_nil

theorem convertChunks_eq (fuel : Nat) (inside : ds.Inside) (upcoming : Upcoming ds wcs bytes)
    (nz : 0 ∉ wcs) (isBytes : bytes = chunks.flatten) (ne : [] ∉ chunks)
    (enough : bytes.length ≤ fuel) : ∃ after : Mbstate, after.mbsinit ∧
      convertChunks fuel (saved ds) chunks = some (wcs, (bytes.length : Int), after) := by
  induction fuel using Nat.strong_induction_on generalizing ds chunks wcs bytes with
  | _ fuel ih =>
  cases chunks with
  | nil =>
    subst isBytes
    obtain ⟨between, rfl⟩ := upcoming.of_nil
    exact ⟨saved ds, ⟨between, rfl⟩, by rw [convertChunks]; rfl⟩
  | cons chunk chunks =>
    obtain ⟨notNil, ne⟩ := not_or.mp (mt mem_cons.mpr ne)
    have pos := length_pos_of_ne_nil (Ne.symm notNil)
    rw [flatten_cons] at isBytes
    have lengths := congrArg length isBytes
    rw [length_append] at lengths
    obtain _ | fuel := fuel
    · omega
    cases upcoming with
    | nil between => simp at lengths; omega
    | @cons wc wcs units rest reads isText =>
      obtain ⟨first, others⟩ := not_or.mp (mt mem_cons.mpr nz)
      have whole (tail : List UInt8) (isChunk : chunk = units ++ tail)
          (isRest : rest = tail ++ chunks.flatten) :
          ∃ after : Mbstate, after.mbsinit ∧ convertChunks (fuel + 1) (saved ds)
            (chunk :: chunks) = some (wc :: wcs, ((units ++ rest).length : Int), after) := by
        have long : 0 < units.length :=
          length_pos_of_ne_nil fun isNil => not_reads_nil (isNil ▸ reads)
        have next : rest = ((tail :: chunks).filter (!·.isEmpty)).flatten := by
          rw [flatten_filter_not_isEmpty, flatten_cons, isRest]
        rw [length_append] at enough ⊢
        obtain ⟨after, initial, run⟩ := ih fuel (Nat.lt_succ_self _)
          (inside_start wc) (upcoming_of_isText isText) others next (by simp) (by omega)
        obtain ⟨status, rfl | rfl, dec⟩ := decodeOne_read inside reads (Ne.symm first) tail
        all_goals exact ⟨after, initial, by simp [convertChunks, mbrtowc, isChunk, dec, run, long]⟩
      obtain ⟨more, isChunk, isRest⟩ | ⟨more, isUnits, isRest⟩ := append_eq_append_iff.mp isBytes
      · exact whole more isChunk isRest
      by_cases ended : more = []
      · subst ended
        exact whole [] (by simpa using isUnits.symm) (by simpa using isRest.symm)
      subst isUnits
      obtain ⟨next, inside, reads, dec⟩ := decodeOne_cut inside reads (Ne.symm notNil) ended
      obtain ⟨after, initial, run⟩ := ih fuel (Nat.lt_succ_self _) inside (.cons reads isText)
        nz isRest.symm ne (by rw [isRest] at lengths; omega)
      exact ⟨after, initial, by simp [convertChunks, mbrtowc, dec, run]⟩

theorem decodeLoop_isText (isText : IsText wcs bytes) (nz : 0 ∉ wcs) (st : Mbstate)
    (cpoint : UInt32) (wseq : OutSeq UInt32) (enough : wcs.length ≤ wseq.room) :
    ∃ after, utf8Charcode.decodeLoop st ⟨0, cpoint⟩ bytes wseq =
      some ⟨.inputExhausted, [], ⟨wseq.written ++ wcs, wseq.room - wcs.length⟩, after⟩ := by
  induction isText generalizing cpoint wseq with
  | nil => exact ⟨_, by rw [append_nil]; rfl⟩
  | @cons wc wcs units rest isChar isText ih =>
    obtain ⟨first, nz⟩ := not_or.mp (mt mem_cons.mpr nz)
    rw [length_cons] at enough
    have hasRoom : wseq.room ≠ 0 := by omega
    rw [decodeLoop_read hasRoom (inside_start cpoint) isChar (Ne.symm first)]
    obtain ⟨after, run⟩ := ih nz wc (wseq.store wc) (Nat.le_sub_one_of_lt enough)
    exact ⟨after, by simpa [OutSeq.store, Nat.sub_sub, Nat.add_comm] using run⟩

/-- The chunks of an encoded text give the characters of the whole text. -/
theorem mbrtowc_chunks_eq {st : Mbstate} (initial : st.mbsinit) (isText : IsText wcs bytes)
    (nz : 0 ∉ wcs) (isBytes : bytes = chunks.flatten) (ne : [] ∉ chunks) :
    (∀ fuel ≥ bytes.length, ∃ after : Mbstate, after.mbsinit ∧
      convertChunks fuel st chunks = some (wcs, (bytes.length : Int), after)) ∧
    ∀ room ≥ wcs.length, room ≠ 0 → ∃ after, utf8Charcode.decodeWtranscode bytes (.empty room) st =
        some ⟨.inputExhausted, [], ⟨wcs, room - wcs.length⟩, after⟩ := by
  obtain ⟨progress, shift, cpoint⟩ := st
  obtain ⟨rfl, rfl⟩ : progress = 0 ∧ shift = 0 := initial
  refine ⟨fun fuel enough => ?_, fun room enough hasRoom => ?_⟩
  · exact convertChunks_eq fuel (inside_start cpoint) (upcoming_of_isText isText) nz isBytes
      ne enough
  · obtain ⟨after, run⟩ :=
      decodeLoop_isText isText nz ⟨0, 0, cpoint⟩ cpoint (.empty room) enough
    exact ⟨after, (if_neg hasRoom).trans run⟩

theorem mbrtowc_chunks_euro : (∀ fuel ≥ 4, ∃ after : Mbstate, after.mbsinit ∧
      convertChunks fuel .initializer [[0xE2], [0x82, 0xAC, 0x61]] =
        some ([0x20AC, 0x61], 4, after)) ∧
    ∀ room ≥ 2, room ≠ 0 →
      ∃ after, utf8Charcode.decodeWtranscode [0xE2, 0x82, 0xAC, 0x61] (.empty room) .initializer =
        some ⟨.inputExhausted, [], ⟨[0x20AC, 0x61], room - 2⟩, after⟩ := by
  have euro : IsCharacter 0x20AC [0xE2, 0x82, 0xAC] := ⟨.three (by decide) (by decide), by decide⟩
  have ch : IsCharacter 0x61 [0x61] := ⟨.one (by decide), by decide⟩
  exact mbrtowc_chunks_eq ⟨rfl, rfl⟩ (.cons euro (.cons ch .nil)) (by decide) rfl (by decide)

theorem isText_of_utf8Encode (legal : ∀ wc ∈ wcs, ¬ IsSurrogate wc)
    (enc : utf8Encode wcs = some bytes) : IsText wcs bytes := by
  induction wcs generalizing bytes with
  | nil =>
    cases enc
    exact .nil
  | cons wc wcs ih =>
    obtain ⟨units, rest, first, others, rfl⟩ := utf8Encode_cons enc
    obtain ⟨scalar, legal⟩ := forall_mem_cons.mp legal
    exact .cons ⟨utf8Form_of_utf8Units first, scalar⟩ (ih legal others)

/-- However the bytes that the encoder wrote arrive, `mbrtowc` reads what was encoded. -/
theorem mbrtowc_encoded (room : Nat) {left fuel : Nat} (nz : 0 ∉ wcs)
    (legal : ∀ wc ∈ wcs, ¬ IsSurrogate wc)
    (encodes : utf8Charcode.encodeWtranscode (.empty room) wcs .initializer =
      some ⟨.inputExhausted, ⟨bytes, left⟩, []⟩)
    (isBytes : bytes = chunks.flatten) (ne : [] ∉ chunks) (enough : bytes.length ≤ fuel) :
    ∃ after : Mbstate, after.mbsinit ∧
      convertChunks fuel .initializer chunks = some (wcs, (bytes.length : Int), after) := by
  obtain ⟨_, encoded, rfl⟩ := encodeLoop_accepted encodes rfl
  have isText := isText_of_utf8Encode legal encoded
  exact convertChunks_eq fuel (inside_start 0) (upcoming_of_isText isText) nz isBytes ne enough

theorem mbrtowc_encoded_euro : ∃ after : Mbstate, after.mbsinit ∧
    convertChunks 3 .initializer [[0xE2], [0x82, 0xAC]] = some ([0x20AC], 3, after) :=
  mbrtowc_encoded 3 (by decide) (by simp [IsSurrogate]) rfl rfl (by decide) (by decide)

/-! ### `mblen` and `mbtowc` -/

/-- The length of the first character, `0` for a null character and `-1` if there is neither. -/
def FirstLength (win : List UInt8) (ret : Int) : Prop :=
  (∃ wc ≠ 0, ∃ units, IsCharacter wc units ∧ units <+: win ∧ ret = units.length) ∨
    win.head? = some 0 ∧ ret = 0 ∨ ret = -1 ∧ ∀ wc units, IsCharacter wc units → ¬ units <+: win

def CutShort (win : List UInt8) : Prop :=
  ∃ wc more, more ≠ [] ∧ IsCharacter wc (win ++ more)

def Agrees (mbs : List UInt8) (limit : Nat) : Prop :=
  ∃ ret, FirstLength (mbs.take limit) ret ∧
    (∃ after, mblen (some mbs) limit .fresh = some (ret, after)) ∧
      ∃ wc after, mbtowc (some mbs) limit .fresh = some (ret, wc, after)

def Restores (sts : Mbstates) : Prop :=
  ∃ ret wc after, mbtowc none 0 sts = some (ret, wc, after) ∧
    ∀ calls, mbtowcAll after calls = mbtowcAll .fresh calls

theorem length_character (isChar : IsCharacter wc units) : units.length ≤ 4 := by
  obtain ⟨form, -⟩ := isChar
  rw [← length_map UInt8.toNat]
  generalize units.map UInt8.toNat = numbers at form ⊢
  cases form <;> simp

/-- What the decoder makes of the beginning of a string, from the initial state on. -/
inductive FirstDecoded (win : List UInt8) : TranscodeStatus → Int → Prop
  | whole {wc : UInt32} {units : List UInt8} {status : TranscodeStatus} (uncut : ¬ CutShort win)
      (nz : wc ≠ 0) (isChar : IsCharacter wc units) (isStart : units <+: win)
      (isStatus : status = .inputExhausted ∨ status = .outputExhausted) :
      FirstDecoded win status units.length
  | cut (cut : CutShort win) : FirstDecoded win .inputUnderflow win.length
  | illegal (consumed : Int) (uncut : ¬ CutShort win)
      (isNone : ∀ wc units, IsCharacter wc units → ¬ units <+: win) :
      FirstDecoded win .illegalInput consumed

theorem exists_firstDecoded (ne : win ≠ []) (nz : win.head? ≠ some 0) :
    ∃ status consumed wc st, FirstDecoded win status consumed ∧
      utf8Charcode.decodeOne win .initializer = some (status, consumed, wc, st) := by
  have inside : Inside ⟨0, 0⟩ := inside_start 0
  by_cases isCut : CutShort win
  · obtain ⟨wc, more, cut, isChar⟩ := isCut
    obtain ⟨next, -, -, dec⟩ := decodeOne_cut inside isChar ne cut
    exact ⟨_, _, _, _, .cut ⟨wc, more, cut, isChar⟩, dec⟩
  by_cases isWhole : ∃ wc units, IsCharacter wc units ∧ units <+: win
  · obtain ⟨wc, units, isChar, rest, rfl⟩ := isWhole
    have isScalar : wc ≠ 0 := by
      rintro rfl
      cases utf8Units_of_form isChar.1
      exact nz rfl
    obtain ⟨status, isStatus, dec⟩ := decodeOne_read inside isChar isScalar rest
    exact ⟨_, _, _, _, .whole isCut isScalar isChar ⟨rest, rfl⟩ isStatus, dec⟩
  obtain whole | cut | ⟨rest, illegal⟩ := decodeLoop_cases inside (.inr ne) .initializer
    (show (OutSeq.empty 1).room ≠ 0 from one_ne_zero)
  · exact absurd whole isWhole
  · exact absurd cut isCut
  · have dec : utf8Charcode.decodeWtranscode win (.empty 1) .initializer = _ := illegal
    push Not at isWhole
    exact ⟨_, _, _, _, .illegal _ isCut isWhole, by rw [decodeOne, dec]; rfl⟩

theorem length_of_cutShort (cut : CutShort win) : win.length < 4 := by
  obtain ⟨wc, more, ne, isChar⟩ := cut
  have bound := length_character isChar
  have pos := length_pos_of_ne_nil ne
  rw [length_append] at bound
  omega

theorem agrees_iff (lead : UInt8) (afterLead : List UInt8) (limit : Nat) :
    Agrees (lead :: afterLead) (limit + 1) ↔ ¬ CutShort (lead :: afterLead.take limit) := by
  by_cases isNull : lead = 0
  · subst isNull
    refine iff_of_true ⟨0, .inr (.inl ⟨rfl, rfl⟩), ⟨_, rfl⟩, _, _, rfl⟩ ?_
    rintro ⟨wc, more, cut, isChar⟩
    exact nonzero_of_cut cut isChar mem_cons_self
  have isShort : (lead :: afterLead).take (min (limit + 1) mbCurMax) =
      (lead :: afterLead.take limit).take 4 := by
    rw [← take_succ_cons, take_take, Nat.min_comm]
    rfl
  obtain ⟨status, consumed, wc, st, isDecoded, dec⟩ :=
    exists_firstDecoded (cons_ne_nil lead (afterLead.take limit)) (by simpa)
  obtain ⟨status', consumed', wc', st', isDecoded', decoded'⟩ :=
    exists_firstDecoded (cons_ne_nil lead ((afterLead.take limit).take 3)) (by simpa)
  rw [← take_succ_cons] at decoded' isDecoded'
  rw [Agrees, take_succ_cons]
  simp only [mbtowc, mblen, isShort, head?_cons, Option.some_inj, isNull, if_false,
    Nat.succ_ne_zero, Mbstates.fresh, take_succ_cons (i := limit), dec]
  generalize lead :: afterLead.take limit = win at *
  cases isDecoded with
  | @whole wc units status uncut nz isChar isStart isStatus =>
    obtain ⟨rest, isShort⟩ : units <+: win.take 4 :=
      prefix_take_iff.mpr ⟨isStart, length_character isChar⟩
    obtain ⟨status', isStatus', decoded'⟩ :=
      decodeOne_read (inside_start 0) isChar nz rest
    refine iff_of_true ⟨units.length, .inl ⟨wc, nz, units, isChar, isStart, rfl⟩, ?_, ?_⟩ uncut
    · obtain rfl | rfl := isStatus
      all_goals exact ⟨_, rfl⟩
    · rw [← isShort]
      change ∃ wc after, (utf8Charcode.decodeOne _ (saved ⟨0, 0⟩)).bind _ = _
      rw [decoded']
      obtain rfl | rfl := isStatus'
      all_goals exact ⟨_, _, rfl⟩
  | cut cut =>
    rw [take_of_length_le (length_of_cutShort cut).le, dec]
    refine iff_of_false ?_ (not_not.mpr cut)
    rintro ⟨ret, -, ⟨_, called⟩, _, _, called'⟩
    cases called
    cases called'
  | illegal _ uncut isNone =>
    rw [decoded']
    cases isDecoded' with
    | whole _ _ isChar isStart =>
      exact absurd (isStart.trans <| take_prefix _ _) (isNone _ _ isChar)
    | cut cut =>
      have short := length_of_cutShort cut
      rw [length_take] at short
      rw [take_of_length_le (by omega)] at cut
      exact absurd cut uncut
    | illegal =>
      exact iff_of_true ⟨-1, .inr (.inr ⟨rfl, isNone⟩), ⟨_, rfl⟩, _, _, rfl⟩ uncut

/-! ### Resetting -/

/-- The states differ at most in the code point of the last character. -/
def Alike (st other : Mbstate) : Prop :=
  st.progress = other.progress ∧ (st.progress ≠ 0 → st.cpoint = other.cpoint)

theorem decodeUnit_alike {other : Utf8DecodeState} (alike : Alike (saved ds) (saved other))
    (uc : UInt8) : (∃ next, ds.decodeUnit uc = some (.inputExhausted, next) ∧
        other.decodeUnit uc = some (.inputExhausted, next)) ∨
      ∃ next next', ds.decodeUnit uc = some (.illegalInput, next) ∧
        other.decodeUnit uc = some (.illegalInput, next') := by
  obtain ⟨progress, cpoint⟩ := ds
  obtain ⟨progress', cpoint'⟩ := other
  obtain ⟨rfl, same⟩ : progress = progress' ∧ (progress ≠ 0 → cpoint = cpoint') := alike
  cases progress with
  | zero =>
    rw [decodeUnit_first, decodeUnit_first]
    split_ifs <;> simp
  | succ progress =>
    obtain rfl := same (Nat.succ_ne_zero _)
    obtain ⟨next, dec⟩ | ⟨next, dec⟩ := decodeUnit_total ⟨progress + 1, cpoint⟩ uc
    · exact .inr ⟨next, next, dec, dec⟩
    · exact .inl ⟨next, dec, dec⟩

theorem decodeLoop_alike {st st' : Mbstate} (alike : Alike st st') {other : Utf8DecodeState}
    (same : Alike (saved ds) (saved other)) (nseq : List UInt8) (wseq : OutSeq UInt32) :
    ∃ status rest out after after',
      utf8Charcode.decodeLoop st ds nseq wseq = some ⟨status, rest, out, after⟩ ∧
      utf8Charcode.decodeLoop st' other nseq wseq = some ⟨status, rest, out, after'⟩ ∧
      Alike after after' := by
  have isProgress : other.progress = ds.progress := same.1.symm
  induction nseq generalizing ds other wseq with
  | nil =>
    simp only [decodeLoop, isProgress]
    split_ifs
    all_goals exact ⟨_, _, _, _, _, rfl, rfl, rfl, same.2⟩
  | cons uc nseq ih =>
    by_cases full : wseq.room = 0
    · simp only [decodeLoop, isProgress, if_pos full]
      split_ifs
      all_goals exact ⟨_, _, _, _, _, rfl, rfl, rfl, same.2⟩
    obtain ⟨next, first, second⟩ | ⟨next, next', first, second⟩ := decodeUnit_alike same uc
    · simp only [decodeLoop, if_neg full, first, second]
      split_ifs
      · contradiction
      · exact ih ⟨rfl, fun _ => rfl⟩ wseq rfl
      · exact ⟨_, _, _, _, _, rfl, rfl, alike⟩
      · exact ih ⟨rfl, fun _ => rfl⟩ (wseq.store next.cpoint) rfl
    · exact ⟨_, _, _, _, _, decodeLoop_illegal full first, decodeLoop_illegal full second, alike⟩

theorem mbtowcAll_alike {sts sts' : Mbstates} (alike : Alike sts.mbtowc sts'.mbtowc)
    (calls : List (Option (List UInt8) × Nat)) : mbtowcAll sts calls = mbtowcAll sts' calls := by
  induction calls generalizing sts sts' with
  | nil => rfl
  | cons call calls ih =>
    obtain ⟨mb | mb, maxSize⟩ := call
    · exact congrArg (Option.map _) (ih alike)
    simp only [mbtowcAll, mbtowc]
    split_ifs
    · exact congrArg (Option.map _) (ih alike)
    · exact congrArg (Option.map _) (ih alike)
    obtain ⟨status, rest, out, after, after', first, second, alike⟩ :=
      decodeLoop_alike alike (show Alike (saved ⟨sts.mbtowc.progress, sts.mbtowc.cpoint⟩)
        (saved ⟨sts'.mbtowc.progress, sts'.mbtowc.cpoint⟩) from alike)
        (mb.take (min maxSize mbCurMax)) (.empty 1)
    have first : utf8Charcode.decodeWtranscode _ (.empty 1) sts.mbtowc = _ := first
    have second : utf8Charcode.decodeWtranscode _ (.empty 1) sts'.mbtowc = _ := second
    simp only [decodeOne, first, second]
    cases status
    case outputOverflow => rfl
    all_goals exact congrArg (Option.map _) (ih alike)

theorem restores_iff (sts : Mbstates) : Restores sts ↔ sts.mbtowc.progress = 0 := by
  constructor
  · rintro ⟨ret, wc, after, called, same⟩
    cases called
    obtain ⟨len, _ | progress, shift, cpoint⟩ := sts
    · rfl
    · cases same [(some [0x61], 1)]
  · intro between
    exact ⟨_, _, _, rfl, mbtowcAll_alike ⟨between, fun pending => absurd between pending⟩⟩

/-- `mblen` and `mbtowc` agree and can be reset exactly if no character is cut short. -/
theorem mbtowc_agrees_iff (text : List UInt8) {n : Nat} (pos : 1 ≤ n) (sts : Mbstates) :
    Agrees (text ++ [0]) n ∧ Restores sts ↔
      ¬ CutShort ((text ++ [0]).take n) ∧ sts.mbtowc.progress = 0 := by
  obtain ⟨limit, rfl⟩ := Nat.exists_eq_add_of_le' pos
  obtain ⟨lead, afterLead, isString⟩ :=
    exists_cons_of_ne_nil (append_ne_nil_of_right_ne_nil text (cons_ne_nil 0 []))
  rw [isString, restores_iff, agrees_iff, take_succ_cons]

theorem mbtowc_agrees_euro : Agrees ([0xE2, 0x82, 0xAC, 0x61] ++ [0]) 4 ∧ Restores .fresh :=
  (mbtowc_agrees_iff [0xE2, 0x82, 0xAC, 0x61] (by decide) .fresh).mpr
    ⟨fun cut => absurd (length_of_cutShort cut) (by decide), rfl⟩

/-- The first byte of two: `mblen` refuses it, while `mbtowc` counts it, and keeps its state when
it is reset. -/
theorem mbtowc_disagrees : ¬ Agrees ([0xC3] ++ [0]) 1 ∧
    ∃ sts wc, mbtowc (some [0xC3, 0]) 1 .fresh = some (1, wc, sts) ∧ ¬ Restores sts := by
  refine ⟨?_, _, _, rfl, ?_⟩
  · rintro ⟨ret, -, ⟨_, called⟩, _, _, called'⟩
    cases called
    cases called'
  · rintro ⟨ret, wc, after, called, same⟩
    cases called
    cases same [(some [0x61], 1)]

end Mlibc
