import Mlibc.InetParser
import Mlibc.InetQuads

/-! # Numbers with dots -/

namespace Mlibc.Inet

open IntegerText NumeralText StringToInteger List

section Dotted

variable {long : IntegerType} {number : Nat}

theorem isDigit_peek (number : Nat) (rest : List Int) :
    isDigit (peek (numberText 10 number ++ rest)) = true := by
  rw [← isDigitOf_ten]
  exact isDigitOf_numberText (by decide) (by decide) number _ (peek_mem 10 number rest)

theorem stops_dot (rest : List Int) : Stops (dot :: rest) := stops_cons rfl rest

theorem length_decimal (small : number < 256) : (numberText 10 number).length ≤ 3 := by
  rw [numberText_length_le_iff (by decide) (by decide)]
  omega

theorem dotted_length {a b c d : Nat} (first : a < 256) (second : b < 256) (third : c < 256)
    (fourth : d < 256) : (dotted a b c d).length ≤ 15 := by
  have lengths := And.intro (length_decimal first) (And.intro (length_decimal second)
    (And.intro (length_decimal third) (length_decimal fourth)))
  simp only [dotted, length_append, length_cons]
  omega

local instance fourOctets : NeZero 4 := fourBytes

def inetText (addr : InAddr) : List Int :=
  dotted (addr 0).toNat (addr 1).toNat (addr 2).toNat (addr 3).toNat

theorem ntopInet_eq (addr : InAddr) (size : Nat) : ntopInet addr size =
      if (inetText addr).length < size then .text (inetText addr) else .fails .enospc := by
  have first := (addr 0).toNat_lt
  have second := (addr 1).toNat_lt
  have third := (addr 2).toNat_lt
  have fourth := (addr 3).toNat_lt
  have lowByte (n : Nat) : n &&& 255 = n % 256 := Nat.and_two_pow_sub_one_eq_mod n 8
  have bytes : dotted ((ntohl addr >>> 24) &&& 255) ((ntohl addr >>> 16) &&& 255)
      ((ntohl addr >>> 8) &&& 255) (ntohl addr &&& 255) = inetText addr := by
    rw [ntohl, bytes_or second third fourth]
    simp only [lowByte]
    congr 1 <;> omega
  simp only [ntopInet, bytes]
  exact snprintf_printed _

theorem isOctet_numberText (small : number < 256) :
    isOctet (numberText 10 number) = true ∧ octetValue (numberText 10 number) = number := by
  have value : octetValue (numberText 10 number) = number :=
    numeral_numberText (by decide) (by decide) number
  have ds : ∀ c ∈ numberText 10 number, isDigitOf 10 c = true :=
    isDigitOf_numberText (by decide) (by decide) number
  rw [isDigitOf_ten] at ds
  refine ⟨decide_eq_true ⟨numberText_ne_nil number, all_eq_true.mpr ds,
    length_decimal small, ?_⟩, value⟩
  rw [value]
  exact Nat.le_of_lt_succ small

theorem ptonInet_inetText (long : IntegerType) (addr : InAddr) :
    ptonInet long (inetText addr) = .ok addr := by
  have other {c : Int} (notDigit : isDigitOf 10 c = false) (number : Nat) :
      c ∉ numberText 10 number := by
    intro mem
    rw [isDigitOf_numberText (by decide) (by decide) number c mem] at notDigit
    cases notDigit
  have noDot := other (rfl : isDigitOf 10 dot = false)
  have noNul := other (rfl : isDigitOf 10 0 = false)
  have octet (byte : UInt8) := isOctet_numberText byte.toNat_lt
  have isGroups : groups (inetText addr) =
      [numberText 10 (addr 0).toNat, numberText 10 (addr 1).toNat,
        numberText 10 (addr 2).toNat, numberText 10 (addr 3).toNat] := by
    simp only [groups, inetText, dotted, splitOn_append_cons_self_of_not_mem (noDot _),
      splitOn_eq_singleton (noDot _)]
  rw [ptonInet_quad long (by simp [inetText, dotted, noNul, dot]) (by simp [isQuad, isGroups,
    octet]),
    isGroups]
  congr 1
  funext k
  fin_cases k <;> simp [octet]

end Dotted

section Mapped

variable {long : IntegerType} {number : Nat}

theorem dottedPart_numberText (value : Int) {last : Bool} (small : number < 256)
    {rest : List Int} (stops : Stops rest) (follows : last = true ∨ peek rest = dot) :
    dottedPart long value last (numberText 10 number ++ rest) =
      if number = 0 ∧ value ≠ 0 then .error .rejected else .ok ((number : Int), rest) := by
  have short := length_decimal small
  have ne : 0 < (numberText 10 number).length := length_pos_iff.mpr (numberText_ne_nil number)
  have acc : ¬((last = false ∧ peek rest ≠ dot) ∨ (number : Int) > 255 ∨
      (numberText 10 number).length = 0) := by
    rintro (⟨notLast, notDot⟩ | large | empty)
    · cases follows with
      | inl isLast => simp [isLast] at notLast
      | inr atDot => exact notDot atDot
    · omega
    · omega
  have zero : peek (numberText 10 number ++ rest) = 48 ↔ number = 0 := by
    have head : (numberText 10 number).head? = some 48 ↔ number = 0 :=
      head?_numberText_iff (by decide) (by decide) number
    rw [← head]
    cases isText : numberText 10 number with
    | nil => exact absurd isText (numberText_ne_nil number)
    | cons c others =>
      rw [head?_cons, Option.some.injEq]
      rfl
  have shortEnough : ¬(numberText 10 number).length > 3 := by omega
  have converted : stringToInteger long (numberText 10 number ++ rest) (10 : Nat) =
      ⟨number, (numberText 10 number).length, false⟩ :=
    stringToInteger_numberText long (by decide) (by decide) (by omega) stops
  have read : strtol long (numberText 10 number ++ rest) 10 =
      ((number : Int), (numberText 10 number).length, rest) := by
    simp only [strtol, converted, drop_left]
  simp only [dottedPart, isDigit_peek, Bool.true_eq_false, if_false, read, if_neg acc,
    shortEnough, false_or, zero]

theorem hexadecimal_of_decimal : ∀ first : Fin 256,
    numeral 16 (digitValues (numberText 10 first.val)) ≤ 65535 ∧
      (numeral 16 (digitValues (numberText 10 first.val)) = 0 ↔ first.val = 0) := by
  decide +kernel

theorem strtol_hexadecimal (long : IntegerType) (small : number < 256) {rest : List Int}
    (stops : Stops rest) :
    ∃ value : Nat, strtol long (numberText 10 number ++ rest) 16 =
        ((value : Int), (numberText 10 number).length, rest) ∧
      value ≤ 65535 ∧ (value = 0 ↔ number = 0) := by
  obtain ⟨bound, zero⟩ := hexadecimal_of_decimal ⟨number, small⟩
  have decimal : Digits 10 (numberText 10 number) :=
    digits_numberText (by decide) (by decide) number
  have isDigits : Digits 16 (numberText 10 number) :=
    ⟨decimal.1, fun c mem => isDigitOf_mono (by decide) (decimal.2 c mem)⟩
  have converted : stringToInteger long (numberText 10 number ++ rest) (16 : Nat) = _ :=
    stringToInteger_append long (by decide) (by decide) isDigits stops
  refine ⟨numeral 16 (digitValues (numberText 10 number)), ?_, bound, zero⟩
  simp only [strtol, converted, drop_left]
  rw [expected_small long (bound.trans (by decide))]

theorem dottedQuad_dotted {a b c d : Nat} (value : Int) (first : a < 256) (second : b < 256)
    (third : c < 256) (fourth : d < 256) :
    dottedQuad long value (dotted a b c d) =
      if value ≠ 0 ∧ (a = 0 ∨ b = 0 ∨ c = 0 ∨ d = 0) then .error .rejected
      else .ok (a * 256 + b, c * 256 + d, []) := by
  have more {number : Nat} (small : number < 256) (rest : List Int) :
      dottedPart long value false (numberText 10 number ++ dot :: rest) =
        if number = 0 ∧ value ≠ 0 then .error .rejected else .ok ((number : Int), dot :: rest) :=
    dottedPart_numberText value small (stops_dot rest) (.inr rfl)
  have last : dottedPart long value true (numberText 10 d) =
      if d = 0 ∧ value ≠ 0 then .error .rejected else .ok ((d : Int), []) := by
    have part : dottedPart long value true (numberText 10 d ++ []) = _ :=
      dottedPart_numberText value fourth stops_nil (.inl rfl)
    rwa [append_nil] at part
  have high : toWord ((a : Int) * 256 + b) = a * 256 + b := by
    unfold toWord
    omega
  have low : toWord ((c : Int) * 256 + d) = c * 256 + d := by
    unfold toWord
    omega
  simp only [dottedQuad, dotted, more first, bind, Except.bind]
  by_cases zeroA : a = 0 ∧ value ≠ 0
  · rw [if_pos zeroA, if_pos ⟨zeroA.2, .inl zeroA.1⟩]
  rw [if_neg zeroA]
  simp only [tail_cons, more second]
  by_cases zeroB : b = 0 ∧ value ≠ 0
  · rw [if_pos zeroB, if_pos ⟨zeroB.2, .inr (.inl zeroB.1)⟩]
  rw [if_neg zeroB]
  simp only [tail_cons, more third]
  by_cases zeroC : c = 0 ∧ value ≠ 0
  · rw [if_pos zeroC, if_pos ⟨zeroC.2, .inr (.inr (.inl zeroC.1))⟩]
  rw [if_neg zeroC]
  simp only [tail_cons, last]
  by_cases zeroD : d = 0 ∧ value ≠ 0
  · rw [if_pos zeroD, if_pos ⟨zeroD.2, .inr (.inr (.inr zeroD.1))⟩]
  rw [if_neg zeroD, if_neg]
  · simp only [high, low]
    rfl
  rintro ⟨nz, isA | isB | isC | isD⟩
  · exact zeroA ⟨isA, nz⟩
  · exact zeroB ⟨isB, nz⟩
  · exact zeroC ⟨isC, nz⟩
  · exact zeroD ⟨isD, nz⟩

theorem parseQuartets_dotted {quartets : Quartets} {fuel length : Nat} {value : Int}
    {src rest last : List Int} (converted : strtol long src 16 = (value, length, dot :: rest))
    (small : ¬(value > 65535 ∨ length > 4)) (reserved : reservedRange quartets = true)
    (room : quartets.i < 7) :
    parseQuartets long (fuel + 1) quartets src last =
      match dottedQuad long value src with
      | .error stop => .error stop
      | .ok (first, second, rest) =>
        .ok ({ quartets with
          i := quartets.i + 1
          array := quartets.array ++ [first, second] }, rest) := by
  have known : ¬(peek (dot :: rest) ≠ 0 ∧ peek (dot :: rest) ≠ colon ∧ peek (dot :: rest) ≠ dot) :=
    fun others => others.2.2 rfl
  have isDotted : peek (dot :: rest) = dot ∧ reservedRange quartets = true ∧ quartets.i < 7 :=
    ⟨rfl, reserved, room⟩
  simp only [parseQuartets, converted]
  rewrite [if_neg small, if_neg known, if_pos isDotted]
  rfl

def mappedText (a b c d : Nat) : List Int :=
  [colon, colon] ++ numberText 16 65535 ++ [colon] ++ dotted a b c d

theorem parseQuartets_mappedText {a b c d : Nat} (first : a < 256) (second : b < 256)
    (third : c < 256) (fourth : d < 256) :
    parseQuartets long 8 ⟨0, [], none⟩ (mappedText a b c d) [] =
      if a ≠ 0 ∧ (b = 0 ∨ c = 0 ∨ d = 0) then .error .rejected
      else .ok (⟨3, [0, 65535, a * 256 + b, c * 256 + d], some 1⟩, []) := by
  have isText : mappedText a b c d =
      [] ++ colon :: colon :: (numberText 16 65535 ++ colon :: dotted a b c d) := by
    simp only [mappedText, append_assoc, cons_append, nil_append]
  have single : peek (dotted a b c d) ≠ colon := by
    intro isColon
    have isDigit : isDigit (peek (dotted a b c d)) = true := isDigit_peek a _
    rw [isColon] at isDigit
    exact absurd isDigit (by decide)
  obtain ⟨value, converted, bound, zero⟩ := strtol_hexadecimal long first
    (stops_dot (numberText 10 b ++ dot :: (numberText 10 c ++ dot :: numberText 10 d)))
  change strtol long (dotted a b c d) 16 = _ at converted
  have short := length_decimal first
  have notLarge : ¬((value : Int) > 65535 ∨ (numberText 10 a).length > 4) := by omega
  have quad : dottedQuad long (value : Int) (dotted a b c d) = _ :=
    dottedQuad_dotted value first second third fourth
  have rejects : ((value : Int) ≠ 0 ∧ (a = 0 ∨ b = 0 ∨ c = 0 ∨ d = 0)) ↔
      (a ≠ 0 ∧ (b = 0 ∨ c = 0 ∨ d = 0)) := by
    rw [Ne, Int.natCast_eq_zero, zero]
    constructor
    · rintro ⟨nz, isZero⟩
      exact ⟨nz, isZero.resolve_left nz⟩
    · rintro ⟨nz, isZero⟩
      exact ⟨nz, .inr isZero⟩
  have reserved : reservedRange ⟨2, [0, 65535], some 1⟩ = true := by decide
  have parsed : parseQuartets long 6 ⟨2, [0, 65535], some 1⟩ (dotted a b c d)
      (colon :: dotted a b c d) =
      if a ≠ 0 ∧ (b = 0 ∨ c = 0 ∨ d = 0) then .error .rejected
      else .ok (⟨3, [0, 65535, a * 256 + b, c * 256 + d], some 1⟩, []) := by
    rw [parseQuartets_dotted converted notLarge reserved (by decide), quad]
    simp only [rejects]
    split_ifs
    · rfl
    · rfl
  rw [isText, parseQuartets_double rfl (.inr ⟨rfl, rfl⟩),
    parseQuartets_colon _ (reads_numberText (by decide)) single]
  exact parsed

theorem ptonInet6_mappedText {a b c d : Nat} (first : a < 256) (second : b < 256)
    (third : c < 256) (fourth : d < 256) :
    ptonInet6 long (mappedText a b c d) =
      if a ≠ 0 ∧ (b = 0 ∨ c = 0 ∨ d = 0) then .error .rejected
      else .ok (wordBytes [0, 0, 0, 0, 0, 65535, a * 256 + b, c * 256 + d]) := by
  have begins : ¬(isHexDigit (peek (mappedText a b c d)) = false ∧
      peek (mappedText a b c d) ≠ colon) := fun both => both.2 rfl
  rw [ptonInet6, parseQuartets_mappedText first second third fourth]
  split_ifs
  · rfl
  · rfl

end Mapped

end Mlibc.Inet
