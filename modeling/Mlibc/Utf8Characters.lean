import Mlibc.Utf8Units

/-!
# Decoding UTF-8 characters

The decoder tests its progress state, the encoder the ranges of code points.
-/

namespace Mlibc

open CharcodeClass Utf8DecodeState List

variable {st : Mbstate} {nseq : List UInt8} {wseq : OutSeq UInt32} {wc : UInt32}
  {ds : Utf8DecodeState} {units more : List UInt8}

namespace Utf8DecodeState

theorem map_continuations (wc later : Nat) :
    ((continuations wc later).map UInt8.ofNat).map UInt8.toNat = continuations wc later := by
  induction later with
  | zero => rfl
  | succ later ih =>
    have unit : (0x80 + wc / 64 ^ later % 64) % 256 = 0x80 + wc / 64 ^ later % 64 := by omega
    simp only [continuations, map_cons, ih, UInt8.toNat_ofNat', unit]

theorem exists_completes (inside : ds.Inside) : ∃ units wc, ds.Completes units wc := by
  obtain ⟨_ | later, cpoint⟩ := ds
  · exact ⟨[], cpoint, completes_end.mpr ⟨rfl, rfl⟩⟩
  -- The least code point whose form begins with the bits so far.
  obtain ⟨wc, bound, toward⟩ : ∃ wc < 2 ^ 32, Toward ⟨later + 1, cpoint⟩ wc := by
    obtain ⟨three, small⟩ := inside
    simp only [Toward] at three small ⊢
    obtain rfl | rfl | rfl : later = 0 ∨ later = 1 ∨ later = 2 := by omega
    · exact ⟨cpoint.toNat * 64, by omega, by omega⟩
    · exact ⟨max 0x800 (cpoint.toNat * 4096), by omega, by omega⟩
    · exact ⟨max 0x10000 (cpoint.toNat * 262144), by omega, by omega⟩
  have value : (UInt32.ofNat wc).toNat = wc := UInt32.toNat_ofNat_of_lt' bound
  refine ⟨(continuations wc (later + 1)).map UInt8.ofNat, UInt32.ofNat wc, ?_⟩
  rw [Completes, value]
  exact ⟨map_continuations wc (later + 1), toward⟩

end Utf8DecodeState

theorem decodeLoop_read (hasRoom : wseq.room ≠ 0) (inside : ds.Inside) (reads : ds.Reads units wc)
    (nz : wc ≠ 0) :
    utf8Charcode.decodeLoop st ds (units ++ nseq) wseq =
      utf8Charcode.decodeLoop st ⟨0, wc⟩ nseq (wseq.store wc) := by
  induction units generalizing ds with
  | nil => exact absurd reads not_reads_nil
  | cons uc units ih =>
    obtain ⟨⟨later, next⟩, dec, completes⟩ := (reads_cons inside uc units wc).mp reads
    cases later with
    | zero =>
      obtain ⟨rfl, rfl⟩ := completes_end.mp completes
      exact decodeLoop_finish hasRoom dec rfl nz
    | succ later =>
      exact (decodeLoop_continue hasRoom dec (Nat.succ_ne_zero later)).trans
        (ih (inside.next dec) completes)

theorem decodeLoop_cut (inside : ds.Inside) (reads : ds.Reads (nseq ++ more) wc)
    (ne : nseq ≠ []) (cut : more ≠ []) (st : Mbstate) (hasRoom : wseq.room ≠ 0) :
    ∃ next : Utf8DecodeState, next.Inside ∧ next.Reads more wc ∧
      utf8Charcode.decodeLoop st ds nseq wseq =
        some ⟨.inputUnderflow, [], wseq, ⟨next.progress, st.shift, next.cpoint⟩⟩ := by
  induction nseq generalizing ds with
  | nil => exact absurd rfl ne
  | cons uc nseq ih =>
    obtain ⟨⟨later, cpoint⟩, dec, completes⟩ :=
      (reads_cons inside uc (nseq ++ more) wc).mp reads
    have within : later ≠ 0 := by
      rintro rfl
      exact cut (append_eq_nil_iff.mp (completes_end.mp completes).1).2
    have reads : Reads ⟨later, cpoint⟩ (nseq ++ more) wc := (if_neg within).mpr completes
    rw [decodeLoop_continue hasRoom dec within]
    by_cases last : nseq = []
    · subst last
      exact ⟨_, inside.next dec, reads, if_pos within⟩
    · exact ih (inside.next dec) reads last

theorem decodeLoop_cases (inside : ds.Inside)
    (unended : ds.progress ≠ 0 ∨ nseq ≠ []) (st : Mbstate) (hasRoom : wseq.room ≠ 0) :
    (∃ wc units, ds.Reads units wc ∧ units <+: nseq) ∨
      (∃ wc more, more ≠ [] ∧ ds.Reads (nseq ++ more) wc) ∨
      ∃ rest, utf8Charcode.decodeLoop st ds nseq wseq = some ⟨.illegalInput, rest, wseq, st⟩ := by
  induction nseq generalizing ds with
  | nil =>
    have within : ds.progress ≠ 0 := unended.resolve_right (not_not.mpr rfl)
    obtain ⟨more, wc, completes⟩ := exists_completes inside
    have reads : ds.Reads more wc := (if_neg within).mpr completes
    exact .inr (.inl ⟨wc, more, fun isNil => not_reads_nil (isNil ▸ reads), reads⟩)
  | cons uc nseq ih =>
    obtain ⟨next, illegal⟩ | ⟨next, dec⟩ := ds.decodeUnit_total uc
    · exact .inr (.inr ⟨_, decodeLoop_illegal hasRoom illegal⟩)
    have cons {units : List UInt8} {wc : UInt32} (completes : next.Completes units wc) :
        ds.Reads (uc :: units) wc := (reads_cons inside uc units wc).mpr ⟨next, dec, completes⟩
    by_cases between : next.progress = 0
    · obtain ⟨progress, cpoint⟩ := next
      subst between
      exact .inl ⟨cpoint, [uc], cons (completes_end.mpr ⟨rfl, rfl⟩), ⟨nseq, rfl⟩⟩
    have completes {units : List UInt8} {wc : UInt32} (reads : next.Reads units wc) :
        next.Completes units wc := (if_neg between).mp reads
    rw [decodeLoop_continue hasRoom dec between]
    obtain ⟨wc, units, reads, ⟨rest, rfl⟩⟩ | ⟨wc, more, ne, reads⟩ | illegal :=
      ih (inside.next dec) (.inl between)
    · exact .inl ⟨wc, _, cons (completes reads), ⟨rest, rfl⟩⟩
    · exact .inr (.inl ⟨wc, more, ne, cons (completes reads)⟩)
    · exact .inr (.inr illegal)

theorem nonzero_of_cut (cut : more ≠ []) (isChar : IsCharacter wc (nseq ++ more)) : 0 ∉ nseq := by
  obtain ⟨form, -⟩ := isChar
  intro mem
  have zero : 0 ∈ (nseq ++ more).map UInt8.toNat :=
    mem_map.mpr ⟨0, mem_append_left _ mem, rfl⟩
  have long : 2 ≤ ((nseq ++ more).map UInt8.toNat).length := by
    have := length_pos_of_mem mem
    have := length_pos_of_ne_nil cut
    rw [length_map, length_append]
    omega
  generalize (nseq ++ more).map UInt8.toNat = numbers at form zero long
  cases form with
  | one => simp at long
  | two | three | four => simp at zero; omega

section

variable (cpoint : UInt32) (hasRoom : wseq.room ≠ 0) (enc : utf8Units wc = some units)

include cpoint hasRoom enc

theorem decodeLoop_utf8Units (nz : wc ≠ 0) (legal : ¬ IsSurrogate wc) :
    utf8Charcode.decodeLoop st ⟨0, cpoint⟩ (units ++ nseq) wseq =
      utf8Charcode.decodeLoop st ⟨0, wc⟩ nseq (wseq.store wc) :=
  decodeLoop_read hasRoom (inside_start cpoint) ⟨utf8Form_of_utf8Units enc, legal⟩ nz

theorem decodeLoop_surrogate (surrogate : IsSurrogate wc) :
    ∃ result, utf8Charcode.decodeLoop st ⟨0, cpoint⟩ (units ++ nseq) wseq =
        some result ∧ result.status = .illegalInput := by
  have form := utf8Form_of_utf8Units enc
  rw [isSurrogate_iff] at surrogate
  generalize values : units.map UInt8.toNat = numbers at form
  cases form with
  | one bound | two above bound | four above bound => omega
  | three above bound =>
    obtain ⟨lead, middle, last, rfl, leadValue, middleValue, -⟩ :
        ∃ lead middle last, units = [lead, middle, last] ∧ lead.toNat = 0xE0 + wc.toNat / 4096 ∧
          middle.toNat = 0x80 + wc.toNat / 64 % 64 ∧
          last.toNat = 0x80 + wc.toNat % 64 := by
      simpa [map_eq_cons_iff] using values
    obtain rfl : lead = 0xED := UInt8.toNat_inj.mp (leadValue.trans (by simp; omega))
    have leadDecoded : decodeUnit ⟨0, cpoint⟩ 0xED = some (.inputExhausted, ⟨1 + 1, 0x0D⟩) := rfl
    have rejected : decodeUnit ⟨1 + 1, 0x0D⟩ middle = some (.illegalInput, ⟨1 + 1, 0x0D⟩) := by
      rw [decodeUnit_next, if_neg]
      intro allowed
      have below := (allowed.2.2.1 rfl).2 rfl
      omega
    exact ⟨_, (decodeLoop_continue hasRoom leadDecoded (Nat.succ_ne_zero _)).trans
      (decodeLoop_illegal hasRoom rejected), rfl⟩

end

def DecodeFails (st : Mbstate) (ds : Utf8DecodeState) (nseq : List UInt8) (wseq : OutSeq UInt32) :
    Prop :=
  ∃ result, utf8Charcode.decodeLoop st ds nseq wseq = some result ∧ (result.status = .illegalInput ∨
      result.status = .inputUnderflow ∧ ∀ unit ∈ nseq, unit ≠ 0)

theorem decodeLoop_character (st : Mbstate) (cpoint : UInt32) (hasRoom : wseq.room ≠ 0)
    (lead : UInt8) (afterLead : List UInt8) :
    DecodeFails st ⟨0, cpoint⟩ (lead :: afterLead) wseq ∨
      (lead = 0 ∧ utf8Charcode.decodeLoop st ⟨0, cpoint⟩ (lead :: afterLead) wseq =
        some ⟨.nullTerminator, afterLead, wseq, st⟩) ∨
      ∃ wc units rest, utf8Units wc = some units ∧ wc ≠ 0 ∧ lead :: afterLead = units ++ rest ∧
        utf8Charcode.decodeLoop st ⟨0, cpoint⟩ (lead :: afterLead) wseq =
          utf8Charcode.decodeLoop st ⟨0, wc⟩ rest (wseq.store wc) := by
  by_cases nul : lead = 0
  · subst nul
    refine .inr (.inl ⟨rfl, ?_⟩)
    rw [decodeLoop, if_neg hasRoom]
    rfl
  have inside : Inside ⟨0, cpoint⟩ := inside_start cpoint
  have ne : lead :: afterLead ≠ [] := cons_ne_nil lead afterLead
  obtain ⟨wc, units, isChar, rest, split⟩ | ⟨wc, more, cut, isChar⟩ | ⟨rest, illegal⟩ :=
    decodeLoop_cases inside (.inr ne) st hasRoom
  · have isUnits : utf8Units wc = some units := utf8Units_of_form isChar.1
    have nz : wc ≠ 0 := by
      rintro rfl
      cases isUnits
      cases split
      exact nul rfl
    rw [← split]
    exact .inr (.inr ⟨wc, units, rest, isUnits, nz, rfl, decodeLoop_read hasRoom inside isChar nz⟩)
  · obtain ⟨next, -, -, underflow⟩ := decodeLoop_cut inside isChar ne cut st hasRoom
    exact .inl ⟨_, underflow, .inr ⟨rfl, fun unit mem isZero =>
      nonzero_of_cut cut isChar (isZero ▸ mem)⟩⟩
  · exact .inl ⟨_, illegal, .inl rfl⟩

theorem decodeLoop_character_accepted {cpoint : UInt32} {result : DecodeResult}
    (run : utf8Charcode.decodeLoop st ⟨0, cpoint⟩ nseq wseq = some result)
    (acc : result.status = .inputExhausted) :
    (nseq = [] ∧ result.wseq = wseq) ∨ ∃ wc units rest, utf8Units wc = some units ∧ wc ≠ 0 ∧
        nseq = units ++ rest ∧
        utf8Charcode.decodeLoop st ⟨0, wc⟩ rest (wseq.store wc) = some result := by
  cases nseq with
  | nil => exact .inl ⟨rfl, (decodeLoop_nil_accepted run acc).2⟩
  | cons lead afterLead =>
    have hasRoom := (decodeLoop_cons_accepted run acc).1
    obtain ⟨other, isOther, failed⟩ | ⟨_, ends⟩ | ⟨wc, units, rest, isUnits, nz, split, same⟩ :=
      decodeLoop_character st cpoint hasRoom lead afterLead
    · cases run.symm.trans isOther
      rw [acc] at failed
      obtain illegal | ⟨underflow, _⟩ := failed
      · cases illegal
      · cases underflow
    · cases run.symm.trans ends
      cases acc
    · exact .inr ⟨wc, units, rest, isUnits, nz, split, same.symm.trans run⟩

/-! ### The decoder on any string -/

namespace Utf8DecodeState

/-- The state behind a string each unit of which the decoder has consumed. -/
def feed (ds : Utf8DecodeState) : List UInt8 → Option Utf8DecodeState
  | [] => some ds
  | uc :: str =>
    match ds.decodeUnit uc with
    | some (.inputExhausted, next) => next.feed str
    | _ => none

/-- A concatenation of well-formed sequences, with their scalar values. -/
inductive IsText : List UInt32 → List UInt8 → Prop where
  | nil : IsText [] []
  | cons {wc : UInt32} {wcs : List UInt32} {units rest : List UInt8} :
      IsCharacter wc units → IsText wcs rest → IsText (wc :: wcs) (units ++ rest)

variable {ds : Utf8DecodeState}

theorem feed_cons {last : Utf8DecodeState} {uc : UInt8} {str : List UInt8} :
    ds.feed (uc :: str) = some last ↔
      ∃ next, ds.decodeUnit uc = some (.inputExhausted, next) ∧ next.feed str = some last := by
  obtain ⟨next, dec⟩ | ⟨next, dec⟩ := ds.decodeUnit_total uc
  · simp [feed, dec]
  · simp [feed, dec]

/-- The rest of a character and then whole characters; `last` is the final scalar value. -/
def EndsText (ds : Utf8DecodeState) (str : List UInt8) (last : UInt32) : Prop :=
  ∃ units wc rest wcs, str = units ++ rest ∧ ds.Completes units wc ∧ IsText wcs rest ∧
    wcs.getLastD wc = last

theorem endsText_cons (inside : ds.Inside) (uc : UInt8) (str : List UInt8) (last : UInt32) :
    ds.EndsText (uc :: str) last ↔
      ∃ next, ds.decodeUnit uc = some (.inputExhausted, next) ∧ next.EndsText str last := by
  constructor
  · rintro ⟨units, wc, rest, wcs, split, completes, isText, isLast⟩
    obtain ⟨_ | progress, cpoint⟩ := ds
    · obtain ⟨rfl, rfl⟩ := completes_end.mp completes
      cases isText with
      | nil => cases split
      | cons isChar isText =>
        rename_i first wcs units rest
        cases units with
        | nil => cases isChar.1
        | cons lead units =>
          cases split
          obtain ⟨next, dec, completes⟩ := (isCharacter_cons cpoint uc units first).mp isChar
          rw [getLastD_cons] at isLast
          exact ⟨next, dec, units, first, rest, wcs, rfl, completes, isText, isLast⟩
    · cases units with
      | nil => cases completes.1
      | cons other units =>
        cases split
        obtain ⟨next, dec, completes⟩ := (completes_cons inside uc units wc).mp completes
        exact ⟨next, dec, units, wc, rest, wcs, rfl, completes, isText, isLast⟩
  · rintro ⟨next, dec, units, wc, rest, wcs, rfl, completes, isText, isLast⟩
    have reads := (reads_cons inside uc units wc).mpr ⟨next, dec, completes⟩
    obtain ⟨_ | progress, cpoint⟩ := ds
    · exact ⟨[], cpoint, _, wc :: wcs, rfl, completes_end.mpr ⟨rfl, rfl⟩, .cons reads isText,
        (getLastD_cons ..).trans isLast⟩
    · exact ⟨uc :: units, wc, rest, wcs, rfl, reads, isText, isLast⟩

theorem feed_eq_iff (inside : ds.Inside) (str : List UInt8)
    (last : UInt32) : ds.feed str = some ⟨0, last⟩ ↔ ds.EndsText str last := by
  induction str generalizing ds with
  | nil =>
    constructor
    · rintro ⟨⟩
      exact ⟨[], last, [], [], rfl, completes_end.mpr ⟨rfl, rfl⟩, .nil, rfl⟩
    · rintro ⟨units, wc, rest, wcs, split, completes, isText, rfl⟩
      obtain ⟨rfl, rfl⟩ := append_eq_nil_iff.mp split.symm
      obtain ⟨_ | progress, cpoint⟩ := ds
      · obtain ⟨-, rfl⟩ := completes_end.mp completes
        generalize ended : [] = rest at isText
        cases isText with
        | nil => rfl
        | cons isChar isText =>
          obtain ⟨rfl, -⟩ := append_eq_nil_iff.mp ended.symm
          cases isChar.1
      · cases completes.1
  | cons uc str ih =>
    rw [feed_cons, endsText_cons inside]
    exact exists_congr fun next => and_congr_right fun dec => ih (inside.next dec)

theorem feed_isSome_iff (inside : ds.Inside) (str : List UInt8) :
    (∃ next, ds.feed str = some next) ↔ ∃ rest last, ds.EndsText (str ++ rest) last := by
  induction str generalizing ds with
  | nil =>
    obtain ⟨units, wc, completes⟩ := exists_completes inside
    exact iff_of_true ⟨ds, rfl⟩
      ⟨units, wc, units, wc, [], [], (append_nil units).symm, completes, .nil, rfl⟩
  | cons uc str ih =>
    simp only [feed_cons, cons_append, endsText_cons inside]
    constructor
    · rintro ⟨last, next, dec, fed⟩
      obtain ⟨rest, last, ends⟩ := (ih (inside.next dec)).mp ⟨last, fed⟩
      exact ⟨rest, last, next, dec, ends⟩
    · rintro ⟨rest, last, next, dec, ends⟩
      obtain ⟨last, fed⟩ := (ih (inside.next dec)).mpr ⟨rest, last, ends⟩
      exact ⟨last, next, dec, fed⟩

theorem endsText_start {cpoint last : UInt32} {str : List UInt8} :
    EndsText ⟨0, cpoint⟩ str last ↔ ∃ wcs, IsText wcs str ∧ wcs.getLastD cpoint = last := by
  constructor
  · rintro ⟨units, wc, rest, wcs, rfl, completes, isText, isLast⟩
    obtain ⟨rfl, rfl⟩ := completes_end.mp completes
    exact ⟨wcs, isText, isLast⟩
  · rintro ⟨wcs, isText, isLast⟩
    exact ⟨[], cpoint, str, wcs, rfl, completes_end.mpr ⟨rfl, rfl⟩, isText, isLast⟩

end Utf8DecodeState

/-- The decoder accepts exactly the beginnings of encoded texts, with the last character as its code
point. -/
theorem utf8Decoder_accepts_iff (str : List UInt8) :
    (feed ⟨0, 0⟩ str ≠ none ↔ ∃ wcs rest, IsText wcs (str ++ rest)) ∧
      ∀ ds, feed ⟨0, 0⟩ str = some ds → (ds.progress = 0 ↔ ∃ wcs, IsText wcs str) ∧
        (∀ wcs wc, IsText (wcs ++ [wc]) str → ds.cpoint = wc) ∧
        ∀ uc, ds.decodeUnit uc ≠ none := by
  have inside : Inside ⟨0, 0⟩ := inside_start 0
  have ends_of {wcs : List UInt32} (isText : IsText wcs str) :
      feed ⟨0, 0⟩ str = some ⟨0, wcs.getLastD 0⟩ :=
    (feed_eq_iff inside str _).mpr (endsText_start.mpr ⟨wcs, isText, rfl⟩)
  refine ⟨?_, fun ds fed => ⟨⟨fun ended => ?_, ?_⟩, fun wcs wc isText => ?_, fun uc => ?_⟩⟩
  · rw [Option.ne_none_iff_exists', feed_isSome_iff inside]
    simp only [endsText_start]
    exact ⟨fun ⟨rest, _, wcs, isText, _⟩ => ⟨wcs, rest, isText⟩,
      fun ⟨wcs, rest, isText⟩ => ⟨rest, _, wcs, isText, rfl⟩⟩
  · obtain ⟨progress, cpoint⟩ := ds
    subst ended
    obtain ⟨wcs, isText, -⟩ := endsText_start.mp ((feed_eq_iff inside str cpoint).mp fed)
    exact ⟨wcs, isText⟩
  · rintro ⟨wcs, isText⟩
    cases fed.symm.trans (ends_of isText)
    rfl
  · cases fed.symm.trans (ends_of isText)
    simp
  · obtain ⟨next, dec⟩ | ⟨next, dec⟩ := ds.decodeUnit_total uc <;> simp [dec]

end Mlibc
