import Mlibc.WideEncoding

/-! # Multibyte strings to wide strings -/

namespace Mlibc

open CharcodeClass List

/-- The bytes are the encoding of the wide characters, none of which is a terminator or a
surrogate. -/
def Decodes (bytes : List UInt8) (wcs : List UInt32) : Prop :=
  utf8Encode wcs = some bytes ∧ ∀ wc ∈ wcs, wc ≠ 0 ∧ ¬IsSurrogate wc

/-- The bytes begin with the characters that are needed for the room, all of them well formed. -/
def Needed (room : Nat) (bytes : List UInt8) (wcs : List UInt32) (rest : List UInt8) : Prop :=
  ∃ front, bytes = front ++ rest ∧ Decodes front wcs ∧
    wcs.length ≤ room ∧ (wcs.length < room → rest = [])

theorem Decodes.cons {wc : UInt32} {units bytes : List UInt8} {wcs : List UInt32}
    (isUnits : utf8Units wc = some units) (legal : wc ≠ 0 ∧ ¬IsSurrogate wc)
    (decodes : Decodes bytes wcs) : Decodes (units ++ bytes) (wc :: wcs) := by
  constructor
  · rw [utf8Encode, isUnits, decodes.1]
  intro other mem
  obtain rfl | later := mem_cons.mp mem
  · exact legal
  · exact decodes.2 other later

theorem Decodes.append {first second : List UInt8} {front back : List UInt32}
    (isFirst : Decodes first front) (isSecond : Decodes second back) :
    Decodes (first ++ second) (front ++ back) := by
  induction front generalizing first with
  | nil =>
    cases isFirst.1
    exact isSecond
  | cons wc front ih =>
    obtain ⟨units, rest, isUnits, isRest, rfl⟩ := utf8Encode_cons isFirst.1
    rw [append_assoc]
    apply Decodes.cons isUnits (isFirst.2 wc mem_cons_self)
    exact ih ⟨isRest, fun other mem => isFirst.2 other (mem_cons_of_mem wc mem)⟩

theorem Decodes.split {bytes : List UInt8} {front back : List UInt32}
    (decodes : Decodes bytes (front ++ back)) :
    ∃ first second, bytes = first ++ second ∧ Decodes first front ∧ Decodes second back := by
  obtain ⟨first, second, isFirst, isSecond, rfl⟩ := utf8Encode_append decodes.1
  exact ⟨first, second, rfl, ⟨isFirst, fun wc mem => decodes.2 wc (mem_append_left back mem)⟩,
    ⟨isSecond, fun wc mem => decodes.2 wc (mem_append_right front mem)⟩⟩

section Needed

variable {room more : Nat} {bytes rest : List UInt8} {wcs : List UInt32}

theorem needed_zero (bytes : List UInt8) : Needed 0 bytes [] bytes :=
  ⟨[], rfl, ⟨rfl, by simp⟩, le_rfl, fun short => absurd short (by decide)⟩

theorem Needed.cons {wc : UInt32} {units : List UInt8} (isUnits : utf8Units wc = some units)
    (legal : wc ≠ 0 ∧ ¬IsSurrogate wc) (needed : Needed room bytes wcs rest) :
    Needed (room + 1) (units ++ bytes) (wc :: wcs) rest := by
  obtain ⟨front, rfl, decodes, fits, atEnd⟩ := needed
  refine ⟨units ++ front, (append_assoc _ _ _).symm, decodes.cons isUnits legal, ?_, ?_⟩
  · exact Nat.succ_le_succ fits
  · exact fun short => atEnd (Nat.lt_of_succ_lt_succ short)

theorem Needed.append {behind : List UInt8} {others : List UInt32}
    (needed : Needed room bytes wcs behind) (filled : wcs.length = room)
    (neededBehind : Needed more behind others rest) :
    Needed (room + more) bytes (wcs ++ others) rest := by
  obtain ⟨front, rfl, decodes, _⟩ := needed
  obtain ⟨middle, rfl, decodesBehind, fits, atEnd⟩ := neededBehind
  refine ⟨front ++ middle, (append_assoc _ _ _).symm, decodes.append decodesBehind, ?_, ?_⟩
  · rw [length_append]
    omega
  · intro short
    rw [length_append] at short
    exact atEnd (by omega)

theorem Needed.split (needed : Needed (room + more) bytes wcs rest) :
    (wcs.length < room ∧ Needed room bytes wcs rest) ∨
      ∃ front back behind, wcs = front ++ back ∧ front.length = room ∧
        Needed room bytes front behind ∧ Needed more behind back rest := by
  obtain ⟨part, rfl, decodes, fits, atEnd⟩ := needed
  by_cases short : wcs.length < room
  · exact .inl ⟨short, part, rfl, decodes, short.le, fun _ => atEnd (by omega)⟩
  right
  rw [← take_append_drop room wcs] at decodes
  obtain ⟨first, second, rfl, isFirst, isSecond⟩ := decodes.split
  have length : (wcs.take room).length = room := length_take_of_le (by omega)
  refine ⟨wcs.take room, wcs.drop room, second ++ rest, (take_append_drop room wcs).symm,
    length, ⟨first, append_assoc _ _ _, isFirst, length.le, by omega⟩,
    ⟨second, rfl, isSecond, ?_, ?_⟩⟩
  · rw [length_drop]
    omega
  · intro shorter
    rw [length_drop] at shorter
    exact atEnd (by omega)

theorem Needed.mono (needed : Needed room bytes wcs rest) (large : bytes.length < room)
    (larger : bytes.length < more) : Needed more bytes wcs rest := by
  obtain ⟨front, rfl, decodes, _, atEnd⟩ := needed
  have short := utf8Encode_length_le decodes.1
  rw [length_append] at large larger
  exact ⟨front, rfl, decodes, by omega, fun _ => atEnd (by omega)⟩

end Needed

section Loop

variable {bytes : List UInt8} {wcs : List UInt32}

theorem decodeLoop_needed {room : Nat} {rest : List UInt8} (st : Mbstate) (cpoint : UInt32)
    (needed : Needed room bytes wcs rest) (written : List UInt32) (beyond : List UInt8) :
    ∃ last, utf8Charcode.decodeLoop st ⟨0, cpoint⟩ (bytes ++ 0 :: beyond) ⟨written, room⟩ =
      some (if wcs.length < room then
        ⟨.nullTerminator, beyond, ⟨written ++ wcs, room - wcs.length⟩, st⟩
      else ⟨.outputExhausted, rest ++ 0 :: beyond, ⟨written ++ wcs, 0⟩,
        { st with cpoint := last, progress := 0 }⟩) := by
  obtain ⟨front, rfl, decodes, fits, atEnd⟩ := needed
  obtain ⟨last, run⟩ := decodeLoop_utf8Encode_append st cpoint ⟨written, room⟩
    (fun wc mem => (decodes.2 wc mem).1) (fun wc mem => (decodes.2 wc mem).2)
    decodes.1 fits (rest ++ 0 :: beyond)
  refine ⟨last, ?_⟩
  rw [append_assoc, run]
  by_cases short : wcs.length < room
  · have hasRoom : room - wcs.length ≠ 0 := by omega
    rw [if_pos short, atEnd short, nil_append, decodeLoop, if_neg hasRoom]
    rfl
  have full : room - wcs.length = 0 := by omega
  rw [if_neg short, full]
  cases behind : rest ++ 0 :: beyond with
  | nil => simp at behind
  | cons uc tail =>
    rw [decodeLoop]
    simp

theorem split_units {wc : UInt32} {units rest beyond : List UInt8}
    (isUnits : utf8Units wc = some units) (isNonzero : wc ≠ 0)
    (split : bytes ++ 0 :: beyond = units ++ rest) :
    ∃ more, bytes = units ++ more ∧ rest = more ++ 0 :: beyond := by
  obtain ⟨extra, isLonger, isBeyond⟩ | ⟨more, isBytes, isRest⟩ := append_eq_append_iff.mp split
  · cases extra with
    | nil =>
      rw [append_nil] at isLonger
      exact ⟨[], by rw [isLonger, append_nil], isBeyond.symm⟩
    | cons nul extra =>
      cases isBeyond
      have mem : 0 ∈ units := by simp [isLonger]
      exact absurd rfl (utf8Units_ne_zero isUnits isNonzero 0 mem)
  · exact ⟨more, isBytes, isRest⟩

theorem decodeLoop_reads (st : Mbstate) (cpoint : UInt32) (room : Nat)
    (noNul : ∀ unit ∈ bytes, unit ≠ 0) (written : List UInt32) (beyond : List UInt8) :
    (∃ wcs rest, Needed room bytes wcs rest) ∨
      ∃ result, utf8Charcode.decodeLoop st ⟨0, cpoint⟩ (bytes ++ 0 :: beyond) ⟨written, room⟩ =
        some result ∧ result.status = .illegalInput := by
  induction room generalizing bytes cpoint written with
  | zero => exact .inl ⟨[], bytes, needed_zero bytes⟩
  | succ room ih =>
    cases bytes with
    | nil => exact .inl ⟨[], [], [], rfl, ⟨rfl, by simp⟩, Nat.zero_le _, fun _ => rfl⟩
    | cons lead after =>
      have hasRoom : (⟨written, room + 1⟩ : OutSeq UInt32).room ≠ 0 := Nat.succ_ne_zero room
      obtain ⟨result, run, failed⟩ | ⟨isNul, _⟩ |
          ⟨wc, units, rest, isUnits, isNonzero, split, same⟩ :=
        decodeLoop_character st cpoint hasRoom lead (after ++ 0 :: beyond)
      · obtain illegal | ⟨_, nz⟩ := failed
        · exact .inr ⟨result, run, illegal⟩
        · exact absurd rfl (nz 0 (by simp))
      · exact absurd isNul (noNul lead mem_cons_self)
      obtain ⟨more, isBytes, rfl⟩ : ∃ more, lead :: after = units ++ more ∧
          rest = more ++ 0 :: beyond :=
        split_units isUnits isNonzero split
      by_cases surrogate : IsSurrogate wc
      · right
        rw [isBytes, append_assoc]
        exact decodeLoop_surrogate cpoint hasRoom isUnits surrogate
      have noNulMore : ∀ unit ∈ more, unit ≠ 0 := by
        intro unit mem
        apply noNul unit
        rw [isBytes]
        exact mem_append_right units mem
      obtain ⟨wcs, rest, needed⟩ | illegal := ih wc noNulMore (written ++ [wc])
      · left
        rw [isBytes]
        exact ⟨wc :: wcs, rest, needed.cons isUnits ⟨isNonzero, surrogate⟩⟩
      · right
        rw [cons_append, same]
        exact illegal

end Loop

end Mlibc
