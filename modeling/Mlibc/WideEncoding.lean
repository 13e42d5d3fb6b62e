import Mlibc.LongestPrefix
import Mlibc.Utf8RoundTrip
import Mlibc.WideStrings

/-! # Wide strings to multibyte strings -/

namespace Mlibc

open CharcodeClass List

section Encode

variable {first second : List UInt32} {bytes : List UInt8}

theorem utf8Encode_append (enc : utf8Encode (first ++ second) = some bytes) :
    ∃ front back, utf8Encode first = some front ∧ utf8Encode second = some back ∧
      bytes = front ++ back := by
  induction first generalizing bytes with
  | nil => exact ⟨[], bytes, rfl, enc, rfl⟩
  | cons wc first ih =>
    obtain ⟨units, rest, isUnits, isRest, rfl⟩ := utf8Encode_cons enc
    obtain ⟨front, back, isFront, isBack, rfl⟩ := ih isRest
    refine ⟨units ++ front, back, ?_, isBack, (append_assoc _ _ _).symm⟩
    rw [utf8Encode, isUnits, isFront]

theorem utf8Encode_length_le (enc : utf8Encode first = some bytes) :
    first.length ≤ bytes.length := by
  induction first generalizing bytes with
  | nil => exact Nat.zero_le _
  | cons wc first ih =>
    obtain ⟨units, rest, isUnits, isRest, rfl⟩ := utf8Encode_cons enc
    have shorter := ih isRest
    have ne := length_pos_iff.mpr (utf8Units_ne_nil isUnits)
    rw [length_cons, length_append]
    omega

theorem utf8Units_length_le {wc : UInt32} {units : List UInt8}
    (enc : utf8Units wc = some units) : units.length ≤ 4 := by
  have form := utf8Form_of_utf8Units enc
  rw [← length_map UInt8.toNat]
  generalize units.map UInt8.toNat = values at form
  cases form <;> simp

theorem utf8Units_ne_zero {wc : UInt32} {units : List UInt8} (isUnits : utf8Units wc = some units)
    (isNonzero : wc ≠ 0) : ∀ unit ∈ units, unit ≠ 0 := by
  rintro _ mem rfl
  have isMember := mem_map_of_mem (f := UInt8.toNat) mem
  have pos : wc.toNat ≠ 0 := fun zero => isNonzero (UInt32.toNat_inj.mp zero)
  have form := utf8Form_of_utf8Units isUnits
  generalize units.map UInt8.toNat = values at form isMember
  cases form <;> simp at isMember <;> omega

end Encode

theorem push_overflow (seq : OutSeq UInt8) (units : List UInt8)
    (overflow : seq.room < units.length) :
    seq.push units = (false, ⟨seq.written ++ units.take seq.room, 0⟩) := by
  induction units generalizing seq with
  | nil => simp at overflow
  | cons unit units ih =>
    unfold OutSeq.push
    by_cases full : seq.room = 0
    · rw [full, take_zero, append_nil]
      cases seq
      cases full
      rfl
    have behind : (seq.store unit).room < units.length := by
      rw [length_cons] at overflow
      simp only [OutSeq.store]
      omega
    obtain ⟨room, isRoom⟩ := Nat.exists_eq_succ_of_ne_zero full
    rw [ih (seq.store unit) behind]
    simp [OutSeq.store, isRoom]

theorem utf8EncodeUnit_overflow {nseq : OutSeq UInt8} {wc : UInt32} {units : List UInt8}
    (isUnits : utf8Units wc = some units) (overflow : nseq.room < units.length) :
    utf8EncodeUnit nseq wc = (.outputOverflow, ⟨nseq.written ++ units.take nseq.room, 0⟩) := by
  simp only [utf8EncodeUnit, isUnits, push_overflow nseq units overflow]

def Fits (room : Nat) (wcs : List UInt32) : Prop :=
  ∃ bytes, utf8Encode wcs = some bytes ∧ bytes.length ≤ room

def Straddles (limit : Nat) (wcs : List UInt32) : Prop :=
  ∃ front wc back bytes units, wcs = front ++ wc :: back ∧ utf8Encode front = some bytes ∧
    utf8Units wc = some units ∧ bytes.length < limit ∧ limit < bytes.length + units.length

/-- Where and why the encoder stops: the bytes of the characters in front, the characters from
there on, and the status. -/
inductive Stops (room : Nat) (wcs : List UInt32) : List UInt8 → List UInt32 → TranscodeStatus → Prop
  | terminator {bytes : List UInt8} (enc : utf8Encode wcs = some bytes)
      (fits : bytes.length < room) : Stops room wcs bytes [] .nullTerminator
  | full {front back : List UInt32} {bytes : List UInt8} (split : wcs = front ++ back)
      (enc : utf8Encode front = some bytes) (fills : bytes.length = room) :
      Stops room wcs bytes back .outputExhausted
  | straddle {front back : List UInt32} {wc : UInt32} {bytes units : List UInt8}
      (split : wcs = front ++ wc :: back) (enc : utf8Encode front = some bytes)
      (isUnits : utf8Units wc = some units) (starts : bytes.length < room)
      (ends : room < bytes.length + units.length) :
      Stops room wcs bytes (wc :: back) .outputOverflow

variable {status : TranscodeStatus} {wcs back : List UInt32} {room : Nat}

theorem Stops.cons {wc : UInt32} {units bytes : List UInt8} (isUnits : utf8Units wc = some units)
    (fits : units.length ≤ room)
    (stops : Stops (room - units.length) wcs bytes back status) :
    Stops room (wc :: wcs) (units ++ bytes) back status := by
  have extend {front : List UInt32} {rest : List UInt8} (enc : utf8Encode front = some rest) :
      utf8Encode (wc :: front) = some (units ++ rest) := by
    rw [utf8Encode, isUnits, enc]
  cases stops with
  | terminator enc short =>
    apply Stops.terminator (extend enc)
    rw [length_append]
    omega
  | full split enc fills =>
    apply Stops.full (congrArg (wc :: ·) split) (extend enc)
    rw [length_append]
    omega
  | straddle split enc isNext starts ends =>
    apply Stops.straddle (congrArg (wc :: ·) split) (extend enc) isNext
    · rw [length_append]
      omega
    · rw [length_append]
      omega

theorem encodeLoop_stops {wcs : List UInt32} {all : List UInt8} (nz : ∀ wc ∈ wcs, wc ≠ 0)
    (enc : utf8Encode wcs = some all) (nseq : OutSeq UInt8) (beyond : List UInt32) :
    ∃ bytes back status, Stops nseq.room wcs bytes back status ∧
      utf8Charcode.encodeLoop nseq nseq (wcs ++ 0 :: beyond) =
        some ⟨status, ⟨nseq.written ++ bytes, nseq.room - bytes.length⟩, back ++ 0 :: beyond⟩ := by
  have noBytes : utf8Encode [] = some [] := rfl
  induction wcs generalizing nseq all with
  | nil =>
    by_cases full : nseq.room = 0
    · refine ⟨[], [], .outputExhausted, Stops.full (nil_append _).symm noBytes full.symm, ?_⟩
      rw [nil_append, encodeLoop, if_pos full, if_neg (not_not_intro rfl), append_nil]
      rfl
    · refine ⟨[], [], .nullTerminator, Stops.terminator rfl (Nat.pos_of_ne_zero full), ?_⟩
      rw [nil_append, encodeLoop, if_neg full, append_nil]
      rfl
  | cons wc wcs ih =>
    obtain ⟨units, rest, isUnits, isRest, rfl⟩ := utf8Encode_cons enc
    have isNonzero : wc ≠ 0 := nz wc mem_cons_self
    by_cases full : nseq.room = 0
    · refine ⟨[], wc :: wcs, .outputExhausted, Stops.full (nil_append _).symm noBytes full.symm, ?_⟩
      rw [cons_append, encodeLoop, if_pos full, if_neg (not_not_intro rfl), append_nil]
      rfl
    by_cases fits : units.length ≤ nseq.room
    · obtain ⟨bytes, back, status, stops, run⟩ := ih
        (fun other mem => nz other (mem_cons_of_mem wc mem)) isRest
        ⟨nseq.written ++ units, nseq.room - units.length⟩
      refine ⟨units ++ bytes, back, status, stops.cons isUnits fits, ?_⟩
      rw [cons_append, encodeLoop, if_neg full, if_neg isNonzero]
      simp only [utf8EncodeUnit_of_le isUnits fits, ne_eq, not_true_eq_false, if_false, run,
        append_assoc, length_append, Nat.sub_sub]
    · refine ⟨[], wc :: wcs, .outputOverflow, Stops.straddle (nil_append _).symm noBytes
        isUnits (Nat.pos_of_ne_zero full) (by simpa using fits), ?_⟩
      rw [cons_append, encodeLoop, if_neg full, if_neg isNonzero]
      simp [utf8EncodeUnit_overflow isUnits (Nat.lt_of_not_le fits)]

variable {bytes : List UInt8}

theorem longest_fits {front back : List UInt32}
    (enc : utf8Encode front = some bytes) (fits : bytes.length ≤ room)
    (next : ∀ wc rest units, back = wc :: rest → utf8Units wc = some units →
      room < bytes.length + units.length) :
    LongestPrefix (Fits room) (front ++ back) (some front.length) := by
  apply LongestPrefix.of_append ⟨bytes, enc, fits⟩
  rintro word rest same ⟨all, isAll, short⟩
  obtain ⟨more, rfl, rfl⟩ | ⟨less, rfl, _⟩ := append_eq_append_iff.mp same
  · cases more with
    | nil => rw [append_nil]
    | cons wc more =>
      obtain ⟨start, behind, isStart, isBehind, rfl⟩ := utf8Encode_append isAll
      obtain ⟨units, others, isUnits, _, rfl⟩ := utf8Encode_cons isBehind
      have beyond := next wc (more ++ rest) units rfl isUnits
      cases enc.symm.trans isStart
      rw [length_append, length_append] at short
      omega
  · rw [length_append]
    exact Nat.le_add_right _ _

theorem Stops.longest (stops : Stops room wcs bytes back status) :
    ∃ front, wcs = front ++ back ∧ utf8Encode front = some bytes ∧
      LongestPrefix (Fits room) wcs (some front.length) ∧
      (status = .nullTerminator ↔ back = [] ∧ bytes.length < room) := by
  cases stops with
  | terminator enc fits =>
    refine ⟨wcs, (append_nil wcs).symm, enc, ?_, by simp [fits]⟩
    have longest : LongestPrefix (Fits room) (wcs ++ []) (some wcs.length) :=
      longest_fits enc fits.le (by simp)
    rwa [append_nil] at longest
  | full split enc fills =>
    refine ⟨_, split, enc, ?_, by simp [fills]⟩
    rw [split]
    apply longest_fits enc fills.le
    intro wc rest units _ isUnits
    have ne := length_pos_iff.mpr (utf8Units_ne_nil isUnits)
    omega
  | straddle split enc isUnits starts ends =>
    refine ⟨_, split, enc, ?_, by simp⟩
    rw [split]
    apply longest_fits enc starts.le
    rintro _ _ units ⟨⟩ isNext
    cases isUnits.symm.trans isNext
    exact ends

theorem Stops.straddles_iff (stops : Stops room wcs bytes back status) :
    Straddles room wcs ↔ status = .outputOverflow := by
  constructor
  · rintro ⟨front, wc, rest, start, units, split, isStart, isUnits, starts, ends⟩
    have first : LongestPrefix (Fits room) wcs (some front.length) := by
      rw [split]
      apply longest_fits isStart starts.le
      rintro _ _ other ⟨⟩ isOther
      cases isUnits.symm.trans isOther
      exact ends
    obtain ⟨other, otherSplit, isOther, second, _⟩ := stops.longest
    have sameLength := Option.some.inj (first.unique second)
    obtain ⟨rfl, rfl⟩ := append_inj (split.symm.trans otherSplit) sameLength
    cases isStart.symm.trans isOther
    cases stops with
    | full _ _ fills => exact absurd fills (ne_of_lt starts)
    | straddle => rfl
  · rintro rfl
    cases stops with
    | straddle split enc isUnits starts ends =>
      exact ⟨_, _, _, _, _, split, enc, isUnits, starts, ends⟩

/-- The longest part that fits is converted, and the terminator if it is reached. -/
def Converted (stored : List UInt8 → List UInt8 → Prop) (wcs beyond : List UInt32) (limit : Nat)
    (result : StringResult UInt32 UInt8) : Prop :=
  ∃ n bytes, LongestPrefix (Fits limit) wcs (some n) ∧ utf8Encode (wcs.take n) = some bytes ∧
    result.returned = some bytes.length ∧
    if n = wcs.length ∧ bytes.length < limit then
      stored (bytes ++ [0]) result.buffer ∧ result.source = none
    else stored bytes result.buffer ∧ result.source = some (wcs.drop n ++ 0 :: beyond)

def Fills (mbs : List UInt8) : List UInt32 → List UInt32 → Nat → StringResult UInt32 UInt8 → Prop :=
  Converted fun units buf => buf = storeUnits mbs units

def Reports : List UInt32 → List UInt32 → Nat → StringResult UInt32 UInt8 → Prop :=
  Converted fun units buf => units <+: buf

theorem Stops.converted {limit : Nat} {wcs back beyond : List UInt32} {bytes buf : List UInt8}
    {src : Option (List UInt32)} {st : Mbstate}
    {stored : List UInt8 → List UInt8 → Prop} (stops : Stops limit wcs bytes back status)
    (agrees : if status = .nullTerminator then stored (bytes ++ [0]) buf ∧ src = none
      else stored bytes buf ∧ src = some (back ++ 0 :: beyond)) :
    Converted stored wcs beyond limit ⟨some bytes.length, buf, src, st⟩ := by
  obtain ⟨front, rfl, enc, longest, reached⟩ := stops.longest
  refine ⟨front.length, bytes, longest, ?_, rfl, ?_⟩
  · rw [take_left]
    exact enc
  have whole : front.length = (front ++ back).length ↔ back = [] := by
    rw [length_append, ← length_eq_zero_iff]
    omega
  rw [drop_left]
  by_cases atEnd : status = .nullTerminator
  · obtain ⟨empty, fits⟩ := reached.mp atEnd
    rw [if_pos atEnd] at agrees
    rw [if_pos ⟨whole.mpr empty, fits⟩]
    exact agrees
  · rw [if_neg atEnd] at agrees
    rw [if_neg (fun both => atEnd (reached.mpr ⟨whole.mp both.1, both.2⟩))]
    exact agrees

end Mlibc
