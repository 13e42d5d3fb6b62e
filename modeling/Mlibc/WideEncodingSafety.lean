import Mlibc.WideEncoding

/-! # The calls that convert a wide string -/

namespace Mlibc

open CharcodeClass List Option

section Calls

variable {wcs : List UInt32} {all mbs : List UInt8} {limit : Nat} {st : Mbstate}

variable (nz : ∀ wc ∈ wcs, wc ≠ 0) (enc : utf8Encode wcs = some all)
  (initial : st.progress = 0) (beyond : List UInt32)

section

include nz enc initial

theorem encodeWtranscode_stops : ∃ bytes back status, Stops limit wcs bytes back status ∧
      utf8Charcode.encodeWtranscode (.empty limit) (wcs ++ 0 :: beyond) st =
        some ⟨status, ⟨bytes, limit - bytes.length⟩, back ++ 0 :: beyond⟩ := by
  obtain ⟨bytes, back, status, stops, run⟩ := encodeLoop_stops nz enc (.empty limit) beyond
  refine ⟨bytes, back, status, stops, ?_⟩
  rw [encodeWtranscode, if_neg (not_not_intro initial)]
  exact run

theorem wcsrtombs_eq_wcsnrtombs (noStraddle : ¬Straddles limit wcs) :
    utf8Charcode.wcsrtombs (some mbs) (wcs ++ 0 :: beyond) limit st =
      utf8Charcode.wcsnrtombs (some mbs) (wcs ++ 0 :: beyond) (wcs ++ 0 :: beyond).length limit
        st := by
  obtain ⟨bytes, back, status, stops, called⟩ :=
    encodeWtranscode_stops nz enc initial beyond
  rw [stops.straddles_iff] at noStraddle
  unfold wcsrtombs wcsnrtombs
  simp only [take_length, drop_length, append_nil, called, bind_eq_bind, bind_some]
  cases stops with
  | terminator => rfl
  | full => rfl
  | straddle => exact absurd rfl noStraddle

theorem wcsnrtombs_stops (room : limit ≤ mbs.length) {wcLimit : Nat} (past : wcs.length < wcLimit) :
    ∃ bytes back status, Stops limit wcs bytes back status ∧
      utf8Charcode.wcsnrtombs (some mbs) (wcs ++ 0 :: beyond) wcLimit limit st =
        if status = .nullTerminator then
          some ⟨some bytes.length, storeUnits mbs (bytes ++ [0]), none, .initializer⟩
        else
          some ⟨some bytes.length, storeUnits mbs (bytes ++
            if status = .outputOverflow then
              ((utf8Units (back.headD 0)).getD []).take (limit - bytes.length)
            else []), some (back ++ 0 :: beyond), st⟩ := by
  obtain ⟨k, rfl⟩ : ∃ k, wcLimit = wcs.length + (k + 1) := ⟨wcLimit - wcs.length - 1, by omega⟩
  obtain ⟨bytes, back, status, stops, called⟩ :=
    encodeWtranscode_stops nz enc initial (beyond.take k)
  refine ⟨bytes, back, status, stops, ?_⟩
  have taken : (wcs ++ 0 :: beyond).take (wcs.length + (k + 1)) = wcs ++ 0 :: beyond.take k := by
    rw [take_length_add_append, take_succ_cons]
  have dropped : (wcs ++ 0 :: beyond).drop (wcs.length + (k + 1)) = beyond.drop k := by
    rw [drop_length_add_append, drop_succ_cons]
  have joined : back ++ 0 :: beyond.take k ++ beyond.drop k = back ++ 0 :: beyond := by
    rw [append_assoc, cons_append, take_append_drop]
  unfold wcsnrtombs
  simp only [taken, called, bind_eq_bind, bind_some]
  cases stops with
  | terminator _ fits =>
    have short : bytes.length < limit := fits
    simp only [EncodeResult.stored, reduceCtorEq, if_false, if_true, if_pos short]
    rw [set_storeUnits 0 (short.trans_le room)]
  | full => simp [EncodeResult.stored]
  | straddle _ _ isUnits _ ends =>
    have overflow : (⟨bytes, limit - bytes.length⟩ : OutSeq UInt8).room < _ :=
      Nat.sub_lt_left_of_lt_add (by omega) ends
    simp [EncodeResult.stored, isUnits, utf8EncodeUnit_overflow isUnits overflow]

end

theorem storeUnits_straddling {wc : UInt32} {bytes units : List UInt8}
    (isUnits : utf8Units wc = some units) (isNonzero : wc ≠ 0) (starts : bytes.length < limit) :
    storeUnits (replicate limit 0) (bytes ++ units.take (limit - bytes.length)) ≠
      storeUnits (replicate limit 0) bytes := by
  obtain ⟨lead, rest, rfl⟩ := exists_cons_of_ne_nil (utf8Units_ne_nil isUnits)
  have leadNonzero : lead ≠ 0 := utf8Units_ne_zero isUnits isNonzero lead mem_cons_self
  obtain ⟨k, isRoom⟩ : ∃ k, limit - bytes.length = k + 1 := Nat.exists_eq_succ_of_ne_zero (by omega)
  intro same
  rw [storeUnits, append_assoc] at same
  have behind := append_cancel_left same
  rw [drop_replicate, drop_replicate, isRoom] at behind
  exact leadNonzero (cons.inj behind).1

section Strings

include nz enc initial

section

variable (room : limit ≤ mbs.length)

include room

omit room in
theorem wcsrtombs_of_straddles (straddles : Straddles limit wcs) :
    utf8Charcode.wcsrtombs (some mbs) (wcs ++ 0 :: beyond) limit st = none := by
  obtain ⟨bytes, back, status, stops, called⟩ :=
    encodeWtranscode_stops nz enc initial beyond
  obtain rfl := stops.straddles_iff.mp straddles
  simp [wcsrtombs, called]

theorem wcsnrtombs_of_not_straddles {wcLimit : Nat} (past : wcs.length < wcLimit)
    (noStraddle : ¬Straddles limit wcs) :
    ∃ result, utf8Charcode.wcsnrtombs (some mbs) (wcs ++ 0 :: beyond) wcLimit limit st =
      some result ∧ Fills mbs wcs beyond limit result := by
  obtain ⟨bytes, back, status, stops, called⟩ :=
    wcsnrtombs_stops nz enc initial beyond room past
  rw [stops.straddles_iff] at noStraddle
  rw [called]
  cases stops with
  | terminator enc fits => exact ⟨_, rfl, (Stops.terminator enc fits).converted ⟨rfl, rfl⟩⟩
  | full split enc fills =>
    refine ⟨_, rfl, (Stops.full split enc fills).converted ⟨?_, rfl⟩⟩
    rw [if_neg (by decide), append_nil]
  | straddle => exact absurd rfl noStraddle

theorem wcsrtombs_of_not_straddles (noStraddle : ¬Straddles limit wcs) :
    ∃ result, utf8Charcode.wcsrtombs (some mbs) (wcs ++ 0 :: beyond) limit st = some result ∧
      Fills mbs wcs beyond limit result := by
  rw [wcsrtombs_eq_wcsnrtombs nz enc initial beyond noStraddle]
  exact wcsnrtombs_of_not_straddles nz enc initial beyond room (by simp) noStraddle

theorem wcstombs_fills_iff : (∃ ret buf after src,
        utf8Charcode.wcstombs (some mbs) (wcs ++ 0 :: beyond) limit st = some (ret, buf, after) ∧
        Fills mbs wcs beyond limit ⟨ret, buf, src, after⟩) ↔
      ¬Straddles limit wcs := by
  constructor
  · rintro ⟨_, _, _, _, called, _⟩ straddles
    rw [wcstombs, wcsrtombs_of_straddles nz enc initial beyond straddles] at called
    cases called
  intro noStraddle
  obtain ⟨result, called, fills⟩ :=
    wcsrtombs_of_not_straddles nz enc initial beyond room noStraddle
  refine ⟨result.returned, result.buffer, result.st, result.source, ?_, fills⟩
  rw [wcstombs, called]
  rfl

theorem wcsnrtombs_reports {wcLimit : Nat} (past : wcs.length < wcLimit) :
    ∃ result, utf8Charcode.wcsnrtombs (some mbs) (wcs ++ 0 :: beyond) wcLimit limit st =
        some result ∧ Reports wcs beyond limit result := by
  obtain ⟨bytes, back, status, stops, called⟩ :=
    wcsnrtombs_stops nz enc initial beyond room past
  have begins (units : List UInt8) : units <+: storeUnits mbs units := prefix_append _ _
  rw [called]
  cases stops with
  | terminator enc fits =>
    exact ⟨_, rfl, (Stops.terminator enc fits).converted ⟨begins _, rfl⟩⟩
  | full split enc fills =>
    refine ⟨_, rfl, (Stops.full split enc fills).converted ⟨?_, rfl⟩⟩
    rw [if_neg (by decide), append_nil]
    exact begins bytes
  | straddle split enc isUnits starts ends =>
    refine ⟨_, rfl, (Stops.straddle split enc isUnits starts ends).converted ⟨?_, rfl⟩⟩
    exact (prefix_append bytes _).trans (begins _)

end

theorem wcsnrtombs_fills_iff {wcLimit : Nat} (past : wcs.length < wcLimit) :
    (∀ mbs : List UInt8, limit ≤ mbs.length → ∃ result,
        utf8Charcode.wcsnrtombs (some mbs) (wcs ++ 0 :: beyond) wcLimit limit st = some result ∧
          Fills mbs wcs beyond limit result) ↔
      ¬Straddles limit wcs := by
  constructor
  · intro fills straddles
    have zeros : limit ≤ (replicate limit (0 : UInt8)).length := by
      rw [length_replicate]
    obtain ⟨result, isResult, n, counted, longest, isCounted, _, stored⟩ := fills _ zeros
    obtain ⟨bytes, back, status, stops, called⟩ :=
      wcsnrtombs_stops nz enc initial beyond zeros past
    obtain rfl := stops.straddles_iff.mp straddles
    obtain ⟨front, split, isFront, isLongest, _⟩ := stops.longest
    obtain rfl := some.inj (longest.unique isLongest)
    cases stops with
    | @straddle other rest wc _ units otherSplit _ isUnits starts ends =>
      rw [split, take_left, isFront] at isCounted
      cases isCounted
      have notWhole : ¬front.length = wcs.length := by
        rw [split, length_append, length_cons]
        omega
      rw [called] at isResult
      cases isResult
      rw [if_neg (fun both => notWhole both.1)] at stored
      have isNonzero : wc ≠ 0 := nz wc (by rw [split]; simp)
      have kept := stored.1
      rw [headD_cons, isUnits] at kept
      exact storeUnits_straddling isUnits isNonzero starts kept
  · intro noStraddle mbs room
    exact wcsnrtombs_of_not_straddles nz enc initial beyond room past noStraddle

end Strings

/-- A condition on the calls one after the other, each of which starts behind the longest part that
fits. -/
def Throughout (allowed : Nat → List UInt32 → Prop) : List UInt32 → List (List UInt8) → Prop
  | _, [] => True
  | wcs, mbs :: bufs => allowed mbs.length wcs ∧
      ∀ n, LongestPrefix (Fits mbs.length) wcs (some n) → Throughout allowed (wcs.drop n) bufs

def ConvertsWhere (allowed : Nat → List UInt32 → Prop) (longest : Nat) (beyond : List UInt32)
    (call : Mbstate → List UInt32 → List UInt8 → Option (StringResult UInt32 UInt8)) : Prop :=
  ∀ wcs all st mbs, (∀ wc ∈ wcs, wc ≠ 0) → utf8Encode wcs = some all → st.progress = 0 →
    wcs.length ≤ longest → allowed mbs.length wcs →
    ∃ bytes back status result, Stops mbs.length wcs bytes back status ∧
      call st (wcs ++ 0 :: beyond) mbs = some result ∧ result.returned = some bytes.length ∧
      bytes <+: result.buffer ∧ result.st.progress = 0 ∧
      result.source = if status = .nullTerminator then none else some (back ++ 0 :: beyond)

theorem Stops.shorter {room : Nat} {back : List UInt32} {bytes : List UInt8}
    {status : TranscodeStatus} (stops : Stops room wcs bytes back status) (large : 4 ≤ room)
    (notEnd : status ≠ .nullTerminator) : back.length < wcs.length := by
  obtain ⟨front, split, isFront, _⟩ := stops.longest
  have ne : front ≠ [] := by
    rintro rfl
    cases isFront
    cases stops with
    | terminator => exact notEnd rfl
    | full _ _ fills => exact absurd fills (by simp; omega)
    | straddle _ _ isUnits _ ends =>
      have short := utf8Units_length_le isUnits
      rw [length_nil] at ends
      omega
  have pos := length_pos_iff.mpr ne
  rw [split, length_append]
  omega

include nz enc initial in
theorem convertAll_encodes {allowed : Nat → List UInt32 → Prop} {longest : Nat}
    {call : Mbstate → List UInt32 → List UInt8 → Option (StringResult UInt32 UInt8)}
    (converts : ConvertsWhere allowed longest beyond call) (bufs : List (List UInt8))
    (large : ∀ mbs ∈ bufs, 4 ≤ mbs.length)
    (bound : wcs.length ≤ longest) (enough : wcs.length < bufs.length)
    (throughout : Throughout allowed wcs bufs) :
    convertAll call st (wcs ++ 0 :: beyond) bufs = some (some (all, none)) := by
  induction bufs generalizing wcs all st with
  | nil => cases enough
  | cons mbs bufs ih =>
    obtain ⟨isAllowed, later⟩ := throughout
    obtain ⟨bytes, back, status, result, stops, called, ret, begins, stillInitial, src⟩ :=
      converts wcs all st mbs nz enc initial bound isAllowed
    obtain ⟨front, split, isFront, isLongest, reached⟩ := stops.longest
    have taken : result.buffer.take bytes.length = bytes := (prefix_iff_eq_take.mp begins).symm
    rw [convertAll, called]
    simp only [bind_eq_bind, bind_some, ret, src]
    by_cases atEnd : status = .nullTerminator
    · obtain ⟨rfl, _⟩ := reached.mp atEnd
      rw [append_nil] at split
      rw [split, isFront] at enc
      cases enc
      simp only [if_pos atEnd, taken]
    have shorter := stops.shorter (large mbs mem_cons_self) atEnd
    rw [split] at enc
    obtain ⟨start, rest, isStart, isRest, rfl⟩ := utf8Encode_append enc
    cases isFront.symm.trans isStart
    have dropped : wcs.drop front.length = back := by rw [split, drop_left]
    have converted := ih (fun wc mem => nz wc (by rw [split]; exact mem_append_right _ mem))
      isRest stillInitial (fun mbs mem => large mbs (mem_cons_of_mem _ mem)) (by omega)
      (by rw [length_cons] at enough; omega)
      (dropped ▸ later _ isLongest)
    simp only [if_neg atEnd, converted, taken, bind_some, map_some]

theorem wcsnrtombs_convertsWhere {longest wcLimit : Nat} (past : longest < wcLimit) :
    ConvertsWhere (fun _ _ => True) longest beyond
      (fun st wcs mbs => utf8Charcode.wcsnrtombs (some mbs) wcs wcLimit mbs.length st) := by
  intro wcs all st mbs nz enc initial bound _
  obtain ⟨bytes, back, status, stops, called⟩ :=
    wcsnrtombs_stops nz enc initial beyond le_rfl (bound.trans_lt past)
  by_cases atEnd : status = .nullTerminator
  · rw [if_pos atEnd] at called
    refine ⟨bytes, back, status, _, stops, called, rfl, ?_, rfl, (if_pos atEnd).symm⟩
    exact (prefix_append bytes [0]).trans (prefix_append _ _)
  · rw [if_neg atEnd] at called
    refine ⟨bytes, back, status, _, stops, called, rfl, ?_, initial, (if_neg atEnd).symm⟩
    exact (prefix_append bytes _).trans (prefix_append _ _)

theorem wcsrtombs_convertsWhere (longest : Nat) :
    ConvertsWhere (fun limit wcs => ¬Straddles limit wcs) longest beyond
      (fun st wcs mbs => utf8Charcode.wcsrtombs (some mbs) wcs mbs.length st) := by
  intro wcs all st mbs nz enc initial _ noStraddle
  have past : wcs.length < (wcs ++ 0 :: beyond).length := by simp
  simp only [wcsrtombs_eq_wcsnrtombs nz enc initial beyond noStraddle]
  exact wcsnrtombs_convertsWhere beyond past wcs all st mbs nz enc initial le_rfl trivial

theorem throughout_true (bufs : List (List UInt8)) : Throughout (fun _ _ => True) wcs bufs := by
  induction bufs generalizing wcs with
  | nil => trivial
  | cons mbs bufs ih => exact ⟨trivial, fun n _ => ih⟩

end Calls

/-- `wcsrtombs` and `wcstombs` fill the buffer exactly if no character straddles the limit;
`wcsnrtombs` always reports the right part.  Calls one after the other put together the whole
encoding. -/
theorem wcsrtombs_converts (wcs beyond : List UInt32) {all : List UInt8}
    (nz : ∀ wc ∈ wcs, wc ≠ 0) (enc : utf8Encode wcs = some all) (st : Mbstate)
    (initial : st.progress = 0) (wcLimit : Nat) (past : wcs.length < wcLimit) :
    (∀ (limit : Nat) (mbs : List UInt8), limit ≤ mbs.length →
      ((∃ result, utf8Charcode.wcsrtombs (some mbs) (wcs ++ 0 :: beyond) limit st = some result ∧
          Fills mbs wcs beyond limit result) ↔ ¬Straddles limit wcs) ∧
      ((∃ ret buf after src, utf8Charcode.wcstombs (some mbs) (wcs ++ 0 :: beyond) limit st =
            some (ret, buf, after) ∧
          Fills mbs wcs beyond limit ⟨ret, buf, src, after⟩) ↔
        ¬Straddles limit wcs) ∧
      ∃ result, utf8Charcode.wcsnrtombs (some mbs) (wcs ++ 0 :: beyond) wcLimit limit st =
          some result ∧ Reports wcs beyond limit result) ∧
    (∀ limit : Nat, (∀ mbs : List UInt8, limit ≤ mbs.length → ∃ result,
        utf8Charcode.wcsnrtombs (some mbs) (wcs ++ 0 :: beyond) wcLimit limit st = some result ∧
          Fills mbs wcs beyond limit result) ↔ ¬Straddles limit wcs) ∧
    ∀ bufs : List (List UInt8), (∀ mbs ∈ bufs, 4 ≤ mbs.length) → wcs.length < bufs.length →
      convertAll (fun st wcs mbs => utf8Charcode.wcsnrtombs (some mbs) wcs wcLimit mbs.length st)
          st (wcs ++ 0 :: beyond) bufs = some (some (all, none)) ∧
        (Throughout (fun limit wcs => ¬Straddles limit wcs) wcs bufs →
          convertAll (fun st wcs mbs => utf8Charcode.wcsrtombs (some mbs) wcs mbs.length st)
            st (wcs ++ 0 :: beyond) bufs = some (some (all, none))) := by
  refine ⟨?_, ?_, ?_⟩
  · intro limit mbs room
    refine ⟨⟨?_, wcsrtombs_of_not_straddles nz enc initial beyond room⟩,
      wcstombs_fills_iff nz enc initial beyond room,
      wcsnrtombs_reports nz enc initial beyond room past⟩
    rintro ⟨result, called, _⟩ straddles
    rw [wcsrtombs_of_straddles nz enc initial beyond straddles] at called
    cases called
  · intro limit
    exact wcsnrtombs_fills_iff nz enc initial beyond past
  intro bufs large enough
  constructor
  · exact convertAll_encodes nz enc initial beyond (wcsnrtombs_convertsWhere beyond past)
      bufs large le_rfl enough (throughout_true bufs)
  · exact convertAll_encodes nz enc initial beyond
      (wcsrtombs_convertsWhere beyond wcs.length) bufs large le_rfl enough

theorem wcsrtombs_converts_euro :
    (∃ result, utf8Charcode.wcsnrtombs (some [1, 1, 1, 1, 1]) ([0x20AC] ++ 0 :: []) 2 5
        .initializer = some result ∧ Reports [0x20AC] [] 5 result) ∧
      convertAll (fun st wcs mbs => utf8Charcode.wcsnrtombs (some mbs) wcs 2 mbs.length st)
        .initializer ([0x20AC] ++ 0 :: []) [[1, 1, 1, 1], [1, 1, 1, 1]] =
          some (some ([0xE2, 0x82, 0xAC], none)) := by
  have enc := wcsrtombs_converts [0x20AC] [] (by simp)
    (show utf8Encode [0x20AC] = some [0xE2, 0x82, 0xAC] by decide) .initializer rfl 2 (by decide)
  exact ⟨(enc.1 5 [1, 1, 1, 1, 1] (by decide)).2.2,
    (enc.2.2 [[1, 1, 1, 1], [1, 1, 1, 1]] (by decide) (by decide)).1⟩

/-- A character of two bytes at a limit of one byte, and behind three bytes at a limit of four. -/
theorem wcsrtombs_straddled_aborts :
    (¬∃ result, utf8Charcode.wcsrtombs (some [1]) ([0xE9] ++ 0 :: []) 1 .initializer =
        some result ∧ Fills [1] [0xE9] [] 1 result) ∧
      convertAll (fun st wcs mbs => utf8Charcode.wcsrtombs (some mbs) wcs mbs.length st)
        .initializer ([97, 97, 97, 0xE9] ++ 0 :: []) (List.replicate 5 [1, 1, 1, 1]) = none := by
  constructor
  · rintro ⟨result, called, _⟩
    cases called
  · decide

end Mlibc
