import Mlibc.WideDecoding

/-! # The calls that convert a multibyte string -/

namespace Mlibc

open CharcodeClass List Option

/-- The characters that are needed are stored, with the terminator if it is reached; or one of them
is ill formed. -/
def Decoded (wcs : List UInt32) (bytes beyond : List UInt8) (limit : Nat)
    (result : StringResult UInt8 UInt32) : Prop :=
  (∃ characters rest, Needed limit bytes characters rest ∧
    result.returned = some characters.length ∧
    if characters.length < limit then
      result.buffer = storeUnits wcs (characters ++ [0]) ∧ result.source = none
    else
      result.buffer = storeUnits wcs characters ∧ result.source = some (rest ++ 0 :: beyond)) ∨
  (¬∃ characters rest, Needed limit bytes characters rest) ∧ result.returned = none

section Calls

variable {wcs chars : List UInt32} {bytes rest : List UInt8} {limit : Nat} {st : Mbstate}

theorem decodeWtranscode_eq (pos : 1 ≤ limit) (st : Mbstate) (initial : st.progress = 0)
    (nseq : List UInt8) :
    utf8Charcode.decodeWtranscode nseq (.empty limit) st =
      utf8Charcode.decodeLoop st ⟨0, st.cpoint⟩ nseq ⟨[], limit⟩ := by
  have hasRoom : (OutSeq.empty limit : OutSeq UInt32).room ≠ 0 := Nat.pos_iff_ne_zero.mp pos
  rw [decodeWtranscode, if_neg hasRoom, initial]
  rfl

theorem mbsrtowcs_of_needed (pos : 1 ≤ limit) (initial : st.progress = 0)
    (room : limit ≤ wcs.length) (needed : Needed limit bytes chars rest)
    (beyond : List UInt8) :
    ∃ after, after.progress = 0 ∧
      utf8Charcode.mbsrtowcs (some wcs) (bytes ++ 0 :: beyond) limit st =
        some (if chars.length < limit then
          ⟨some chars.length, storeUnits wcs (chars ++ [0]), none, after⟩
        else ⟨some chars.length, storeUnits wcs chars, some (rest ++ 0 :: beyond), after⟩) := by
  obtain ⟨last, run⟩ := decodeLoop_needed st st.cpoint needed [] beyond
  rw [← decodeWtranscode_eq pos st initial] at run
  unfold mbsrtowcs
  by_cases short : chars.length < limit
  · refine ⟨.initializer, rfl, ?_⟩
    simp only [run, bind_eq_bind, bind_some, nil_append, if_true, if_pos short]
    rw [set_storeUnits 0 (short.trans_le room)]
  · rw [if_neg short] at run
    refine ⟨{ st with cpoint := last, progress := 0 }, rfl, ?_⟩
    rw [if_neg short]
    simp [run]

theorem mbsrtowcs_of_not_needed (pos : 1 ≤ limit) (initial : st.progress = 0)
    (noNul : ∀ unit ∈ bytes, unit ≠ 0)
    (illFormed : ¬∃ chars rest, Needed limit bytes chars rest)
    (wcs : List UInt32) (beyond : List UInt8) :
    ∃ result, utf8Charcode.mbsrtowcs (some wcs) (bytes ++ 0 :: beyond) limit st = some result ∧
      result.returned = none := by
  obtain needed | ⟨result, run, illegal⟩ := decodeLoop_reads st st.cpoint limit noNul [] beyond
  · exact absurd needed illFormed
  · rw [← decodeWtranscode_eq pos st initial] at run
    unfold mbsrtowcs
    simp [run, illegal]

theorem mbsrtowcs_decoded_iff (initial : st.progress = 0) (noNul : ∀ unit ∈ bytes, unit ≠ 0)
    (room : limit ≤ wcs.length) (beyond : List UInt8) :
    (∃ result, utf8Charcode.mbsrtowcs (some wcs) (bytes ++ 0 :: beyond) limit st = some result ∧
        Decoded wcs bytes beyond limit result) ↔ 1 ≤ limit := by
  constructor
  · rintro ⟨result, called, _⟩
    cases limit with
    | zero => cases called
    | succ limit => exact Nat.succ_le_succ (Nat.zero_le limit)
  intro pos
  by_cases wellFormed : ∃ chars rest, Needed limit bytes chars rest
  · obtain ⟨chars, rest, needed⟩ := wellFormed
    obtain ⟨after, _, called⟩ := mbsrtowcs_of_needed pos initial room needed beyond
    refine ⟨_, called, .inl ⟨chars, rest, needed, ?_, ?_⟩⟩
    · split_ifs <;> rfl
    · split_ifs <;> exact ⟨rfl, rfl⟩
  · obtain ⟨result, called, fails⟩ :=
      mbsrtowcs_of_not_needed pos initial noNul wellFormed wcs beyond
    exact ⟨result, called, .inr ⟨wellFormed, fails⟩⟩

theorem mbstowcs_eq_mbsrtowcs (pos : 1 ≤ limit) (noNul : ∀ unit ∈ bytes, unit ≠ 0)
    (wcs : List UInt32) (beyond : List UInt8) :
    utf8Charcode.mbstowcs (some wcs) (bytes ++ 0 :: beyond) limit =
      (utf8Charcode.mbsrtowcs (some wcs) (bytes ++ 0 :: beyond) limit .initializer).map
        fun result => (result.returned, result.buffer) := by
  have called := decodeWtranscode_eq pos .initializer rfl (bytes ++ 0 :: beyond)
  unfold mbstowcs mbsrtowcs
  obtain ⟨chars, rest, needed⟩ | ⟨result, run, illegal⟩ :=
    decodeLoop_reads .initializer 0 limit noNul [] beyond
  · obtain ⟨last, run⟩ := decodeLoop_needed .initializer 0 needed [] beyond
    by_cases short : chars.length < limit <;> simp [called.trans run, short]
  · simp [called.trans run, illegal]

theorem mbstowcs_decoded_iff (noNul : ∀ unit ∈ bytes, unit ≠ 0) (room : limit ≤ wcs.length)
    (beyond : List UInt8) :
    (∃ ret buf src after,
        utf8Charcode.mbstowcs (some wcs) (bytes ++ 0 :: beyond) limit = some (ret, buf) ∧
        Decoded wcs bytes beyond limit ⟨ret, buf, src, after⟩) ↔ 1 ≤ limit := by
  constructor
  · rintro ⟨_, _, _, _, called, _⟩
    cases limit with
    | zero => cases called
    | succ limit => exact Nat.succ_le_succ (Nat.zero_le limit)
  intro pos
  have initial : Mbstate.initializer.progress = 0 := rfl
  obtain ⟨result, called, dec⟩ := (mbsrtowcs_decoded_iff initial noNul room beyond).mpr pos
  refine ⟨result.returned, result.buffer, result.source, result.st, ?_, dec⟩
  rw [mbstowcs_eq_mbsrtowcs pos noNul, called]
  rfl

def mbsrtowcsCall (st : Mbstate) (mbs : List UInt8) (wcs : List UInt32) :
    Option (StringResult UInt8 UInt32) :=
  utf8Charcode.mbsrtowcs (some wcs) mbs wcs.length st

variable {bufs : List (List UInt32)}

variable (pos : ∀ wcs ∈ bufs, 1 ≤ wcs.length)

include pos

theorem convertAll_of_needed (initial : st.progress = 0)
    (needed : Needed bufs.flatten.length bytes chars rest) (beyond : List UInt8) :
    convertAll mbsrtowcsCall st (bytes ++ 0 :: beyond) bufs =
      some (some (chars, if chars.length < bufs.flatten.length then none
        else some (rest ++ 0 :: beyond))) := by
  induction bufs generalizing bytes chars st with
  | nil =>
    obtain ⟨front, rfl, decodes, fits, _⟩ := needed
    have empty : chars = [] := length_eq_zero_iff.mp (Nat.le_zero.mp fits)
    subst empty
    cases decodes.1
    rfl
  | cons wcs bufs ih =>
    have hasRoom := pos wcs mem_cons_self
    rw [flatten_cons, length_append] at needed ⊢
    obtain ⟨short, neededFirst⟩ | ⟨front, back, behind, rfl, filled, neededFirst, neededLater⟩ :=
      needed.split
    · obtain ⟨after, _, called⟩ :=
        mbsrtowcs_of_needed hasRoom initial le_rfl neededFirst beyond
      rw [if_pos short] at called
      rw [convertAll, mbsrtowcsCall, called, if_pos (Nat.lt_add_right _ short)]
      simp only [bind_eq_bind, bind_some, take_storeUnits]
    obtain ⟨after, stillInitial, called⟩ :=
      mbsrtowcs_of_needed hasRoom initial le_rfl neededFirst beyond
    have later := ih (fun wcs mem => pos wcs (mem_cons_of_mem _ mem)) stillInitial neededLater
    have taken := take_storeUnits wcs front []
    rw [append_nil, filled] at taken
    rw [if_neg (by omega)] at called
    rw [convertAll, mbsrtowcsCall, called]
    simp only [bind_eq_bind, bind_some, later, map_some, taken,
      length_append, filled, Nat.add_lt_add_iff_left]

theorem convertAll_of_not_needed (initial : st.progress = 0) (noNul : ∀ unit ∈ bytes, unit ≠ 0)
    (illFormed : ¬∃ chars rest, Needed bufs.flatten.length bytes chars rest)
    (beyond : List UInt8) :
    convertAll mbsrtowcsCall st (bytes ++ 0 :: beyond) bufs = some none := by
  induction bufs generalizing bytes st with
  | nil => exact absurd ⟨[], bytes, needed_zero bytes⟩ illFormed
  | cons wcs bufs ih =>
    have hasRoom := pos wcs mem_cons_self
    rw [flatten_cons, length_append] at illFormed
    by_cases wellFormed : ∃ chars rest, Needed wcs.length bytes chars rest
    · obtain ⟨chars, rest, needed⟩ := wellFormed
      obtain ⟨after, stillInitial, called⟩ :=
        mbsrtowcs_of_needed hasRoom initial le_rfl needed beyond
      have filled : ¬chars.length < wcs.length := by
        intro short
        obtain ⟨front, isBytes, decodes, _, atEnd⟩ := needed
        exact illFormed ⟨chars, rest, front, isBytes, decodes, by omega, fun _ => atEnd short⟩
      have length : chars.length = wcs.length := by
        obtain ⟨_, _, _, fits, _⟩ := needed
        omega
      have illFormedLater : ¬∃ chars later, Needed bufs.flatten.length rest chars later := by
        rintro ⟨others, later, neededLater⟩
        exact illFormed ⟨_, later, needed.append length neededLater⟩
      have noNulLater : ∀ unit ∈ rest, unit ≠ 0 := by
        obtain ⟨front, rfl, _⟩ := needed
        exact fun unit mem => noNul unit (mem_append_right front mem)
      have later := ih (fun wcs mem => pos wcs (mem_cons_of_mem _ mem))
        stillInitial noNulLater illFormedLater
      rw [if_neg filled] at called
      rw [convertAll, mbsrtowcsCall, called]
      simp only [bind_eq_bind, bind_some, later, map_none]
    · obtain ⟨result, called, fails⟩ :=
        mbsrtowcs_of_not_needed hasRoom initial noNul wellFormed wcs beyond
      rw [convertAll, mbsrtowcsCall, called]
      simp only [bind_eq_bind, bind_some, fails]

theorem convertAll_split {large : List UInt32} (largePositive : 1 ≤ large.length)
    (initial : st.progress = 0) (noNul : ∀ unit ∈ bytes, unit ≠ 0)
    (same : large.length = bufs.flatten.length ∨
      bytes.length < large.length ∧ bytes.length < bufs.flatten.length)
    (beyond : List UInt8) :
    convertAll mbsrtowcsCall st (bytes ++ 0 :: beyond) bufs =
      convertAll mbsrtowcsCall st (bytes ++ 0 :: beyond) [large] := by
  have single : ∀ wcs ∈ [large], 1 ≤ wcs.length := by simpa using largePositive
  have flat : [large].flatten.length = large.length := by simp
  have needed_iff (chars : List UInt32) (rest : List UInt8) :
      Needed bufs.flatten.length bytes chars rest ↔
        Needed [large].flatten.length bytes chars rest := by
    rw [flat]
    obtain equal | ⟨first, second⟩ := same
    · rw [equal]
    · exact ⟨fun needed => needed.mono second first, fun needed => needed.mono first second⟩
  by_cases wellFormed : ∃ chars rest, Needed bufs.flatten.length bytes chars rest
  · obtain ⟨chars, rest, needed⟩ := wellFormed
    rw [convertAll_of_needed pos initial needed,
      convertAll_of_needed single initial ((needed_iff chars rest).mp needed), flat]
    obtain equal | ⟨first, second⟩ := same
    · rw [equal]
    obtain ⟨front, rfl, decodes, _⟩ := needed
    have short := utf8Encode_length_le decodes.1
    rw [length_append] at first second
    rw [if_pos (by omega), if_pos (by omega)]
  · have illFormed : ¬∃ chars rest, Needed [large].flatten.length bytes chars rest := by
      rintro ⟨chars, rest, needed⟩
      exact wellFormed ⟨chars, rest, (needed_iff chars rest).mpr needed⟩
    rw [convertAll_of_not_needed pos initial noNul wellFormed,
      convertAll_of_not_needed single initial noNul illFormed]

end Calls

/-- `mbsrtowcs` and `mbstowcs` store the characters that are needed, or fail where one is ill
formed, exactly if there is any room; and the split into calls does not matter. -/
theorem mbsrtowcs_converts {bytes : List UInt8} (noNul : ∀ unit ∈ bytes, unit ≠ 0)
    (beyond : List UInt8) (st : Mbstate) (initial : st.progress = 0) :
    (∀ (limit : Nat) (wcs : List UInt32), limit ≤ wcs.length →
      ((∃ result, utf8Charcode.mbsrtowcs (some wcs) (bytes ++ 0 :: beyond) limit st =
          some result ∧ Decoded wcs bytes beyond limit result) ↔ 1 ≤ limit) ∧
      ((∃ ret buf src after,
          utf8Charcode.mbstowcs (some wcs) (bytes ++ 0 :: beyond) limit = some (ret, buf) ∧
          Decoded wcs bytes beyond limit ⟨ret, buf, src, after⟩) ↔ 1 ≤ limit)) ∧
    ∀ (bufs : List (List UInt32)) (large : List UInt32),
      (∀ wcs ∈ bufs, 1 ≤ wcs.length) → 1 ≤ large.length →
      (large.length = bufs.flatten.length ∨
        bytes.length < large.length ∧ bytes.length < bufs.flatten.length) →
      convertAll mbsrtowcsCall st (bytes ++ 0 :: beyond) bufs =
        convertAll mbsrtowcsCall st (bytes ++ 0 :: beyond) [large] := by
  constructor
  · intro limit wcs room
    exact ⟨mbsrtowcs_decoded_iff initial noNul room beyond, mbstowcs_decoded_iff noNul room beyond⟩
  · intro bufs large positive largePositive same
    exact convertAll_split positive largePositive initial noNul same beyond

theorem mbsrtowcs_converts_euro :
    (∃ result, utf8Charcode.mbsrtowcs (some [1, 1]) ([0xE2, 0x82, 0xAC, 0x41] ++ 0 :: []) 2
        .initializer = some result ∧ Decoded [1, 1] [0xE2, 0x82, 0xAC, 0x41] [] 2 result) ∧
      convertAll mbsrtowcsCall .initializer ([0xE2, 0x82, 0xAC, 0x41] ++ 0 :: [])
        [[1], [1], [1], [1], [1]] = some (some ([0x20AC, 0x41], none)) := by
  have converts := mbsrtowcs_converts (show ∀ unit ∈ [0xE2, 0x82, 0xAC, 0x41], unit ≠ 0 by simp)
    [] .initializer rfl
  constructor
  · exact (converts.1 2 [1, 1] (by decide)).1.mpr (by decide)
  · rw [converts.2 _ [1, 1, 1, 1, 1] (by decide) (by decide) (.inl (by decide))]
    decide

/-- A buffer without any room. -/
theorem mbsrtowcs_empty_aborts :
    ¬∃ result, utf8Charcode.mbsrtowcs (some []) ([0x41] ++ 0 :: []) 0 .initializer =
      some result ∧ Decoded [] [0x41] [] 0 result := by
  rintro ⟨result, called, _⟩
  cases called

end Mlibc
