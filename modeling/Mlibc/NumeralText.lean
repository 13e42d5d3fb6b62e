import Mathlib.Tactic.IntervalCases
import Mlibc.StringToIntegerRange

/-! # Numbers as text -/

namespace Mlibc.NumeralText

open IntegerText StringToInteger List

def numberText (base number : Nat) : List Int :=
  (Nat.toDigits base number).map fun c => (c.toNat : Int)

def Stops (rest : List Int) : Prop := ∀ c ∈ rest.head?, digitValue c = none

theorem stops_nil : Stops [] := by
  intro c mem
  cases mem

theorem stops_cons {c : Int} (other : digitValue c = none) (rest : List Int) :
    Stops (c :: rest) := by
  intro d mem
  cases mem
  exact other

theorem digitValue_digitChar {digit : Nat} (small : digit < 16) :
    digitValue (digit.digitChar.toNat : Int) = some digit := by
  interval_cases digit <;> rfl

section Digits

variable {base : Nat}

theorem numberText_of_lt {number : Nat} (small : number < base) :
    numberText base number = [(number.digitChar.toNat : Int)] := by
  rw [numberText, Nat.toDigits_of_lt_base small]
  rfl

theorem numberText_ne_nil (number : Nat) : numberText base number ≠ [] := by
  intro empty
  exact Nat.toDigits_ne_nil (map_eq_nil_iff.mp empty)

variable (baseGe : 2 ≤ base)
include baseGe

theorem numberText_of_le {number : Nat} (large : base ≤ number) : numberText base number =
      numberText base (number / base) ++ [((number % base).digitChar.toNat : Int)] := by
  rw [numberText, Nat.toDigits_of_base_le baseGe large, map_append]
  rfl

theorem numberText_length_le_iff {number width : Nat} (pos : 0 < width) :
    (numberText base number).length ≤ width ↔ number < base ^ width := by
  rw [numberText, length_map]
  exact Nat.length_toDigits_le_iff baseGe pos

variable (baseLe : base ≤ 16)
include baseLe

theorem isDigitOf_numberText (number : Nat) :
    ∀ c ∈ numberText base number, isDigitOf base c = true := by
  induction number using Nat.strong_induction_on with
  | _ number ih =>
    have isDigit {digit : Nat} (small : digit < base) :
        isDigitOf base (digit.digitChar.toNat : Int) = true := by
      rw [isDigitOf, digitValue_digitChar (by omega)]
      exact decide_eq_true small
    intro c mem
    by_cases small : number < base
    · rw [numberText_of_lt small, mem_singleton] at mem
      rw [mem]
      exact isDigit small
    rw [numberText_of_le baseGe (by omega), mem_append, mem_singleton] at mem
    cases mem with
    | inl front => exact ih _ (Nat.div_lt_self (by omega) baseGe) c front
    | inr last =>
      rw [last]
      exact isDigit (Nat.mod_lt _ (by omega))

theorem digits_numberText (number : Nat) : Digits base (numberText base number) :=
  ⟨numberText_ne_nil number, isDigitOf_numberText baseGe baseLe number⟩

theorem numeral_numberText (number : Nat) :
    numeral base (digitValues (numberText base number)) = number := by
  induction number using Nat.strong_induction_on with
  | _ number ih =>
    by_cases small : number < base
    · rw [numberText_of_lt small, digitValues,
        filterMap_cons_some (digitValue_digitChar (by omega))]
      simp [numeral]
    have remainder : number % base < base := Nat.mod_lt _ (by omega)
    have lower := ih (number / base) (Nat.div_lt_self (by omega) baseGe)
    rw [numberText_of_le baseGe (by omega), digitValues, filterMap_append,
      filterMap_cons_some (digitValue_digitChar (by omega)), filterMap_nil,
      numeral_append]
    change numeral base (digitValues (numberText base (number / base))) * base + _ = _
    rw [lower, Nat.div_add_mod']

theorem head?_numberText_iff (number : Nat) :
    (numberText base number).head? = some 48 ↔ number = 0 := by
  induction number using Nat.strong_induction_on with
  | _ number ih =>
    by_cases small : number < base
    · have under : number < 16 := by omega
      rw [numberText_of_lt small]
      interval_cases number <;> decide
    have quotient : number / base ≠ 0 := by
      have pos := Nat.div_pos (not_lt.mp small) (by omega)
      omega
    have front : (numberText base (number / base)).head?.isSome = true := by
      rw [isSome_head?]
      exact numberText_ne_nil _
    rw [numberText_of_le baseGe (by omega), head?_append, Option.or_of_isSome front,
      ih _ (Nat.div_lt_self (by omega) baseGe)]
    omega

end Digits

section Conversion

variable {base : Nat} {ds rest : List Int}

theorem skipPrefix_append (baseGe : 2 ≤ base) (isDigits : Digits base ds)
    (stops : Stops rest) : skipPrefix base (ds ++ rest) = ((base : Int), ds ++ rest) := by
  have nz : ¬(base : Int) = 0 := by omega
  have second {c : Int} (here : (ds ++ rest)[1]? = some c) :
      isDigitOf base c = true ∨ digitValue c = none := by
    obtain ⟨first, others, d, rfl, digit⟩ := head_of_digits isDigits
    rw [cons_append, getElem?_cons_succ, ← head?_eq_getElem?] at here
    cases others with
    | nil => exact .inr (stops c here)
    | cons next others =>
      cases here
      exact .inl (isDigits.2 _ (mem_cons_of_mem _ mem_cons_self))
  have ch {c : Int} {d : Nat} (here : (ds ++ rest)[1]? = some c)
      (value : digitValue c = some d) (large : base ≤ d) : False := by
    cases second here with
    | inl isDigit =>
      rw [isDigitOf, value] at isDigit
      have below := of_decide_eq_true isDigit
      omega
    | inr none =>
      rw [none] at value
      cases value
  unfold skipPrefix
  simp only [nz, false_or, if_false]
  rw [if_neg, if_neg]
  · split_ifs with octal
    · rw [octal.1]
    · rfl
  · rintro ⟨isTwo, _, here | here⟩
    · exact ch here (d := 11) rfl (by omega)
    · exact ch here (d := 11) rfl (by omega)
  · rintro ⟨isSixteen, ⟨_, here | here⟩, _⟩
    · exact ch here (d := 33) rfl (by omega)
    · exact ch here (d := 33) rfl (by omega)

theorem takeWhile_digits (isDigits : Digits base ds) (stops : Stops rest) :
    (ds ++ rest).takeWhile (isDigitOf base) = ds ∧
      (ds ++ rest).dropWhile (isDigitOf base) = rest := by
  have none : rest.takeWhile (isDigitOf base) = [] ∧ rest.dropWhile (isDigitOf base) = rest := by
    cases rest with
    | nil => exact ⟨rfl, rfl⟩
    | cons c others =>
      have other : ¬isDigitOf base c = true := by
        rw [isDigitOf, stops c rfl]
        exact Bool.false_ne_true
      exact ⟨takeWhile_cons_of_neg other, dropWhile_cons_of_neg other⟩
  rw [takeWhile_append_of_pos isDigits.2, dropWhile_append_of_pos isDigits.2, none.1,
    none.2, append_nil]
  exact ⟨rfl, rfl⟩

theorem plain_of_digitValue {c : Int} {d : Nat} (digit : digitValue c = some d) (rest : List Int) :
    afterSign (c :: rest) = c :: rest ∧ isNegative (c :: rest) = false := by
  obtain ⟨notSpace, notPlus, notMinus⟩ := other_of_digitValue digit
  have spaces : (c :: rest).dropWhile isSpace = c :: rest :=
    dropWhile_cons_of_neg (by rw [notSpace]; exact Bool.false_ne_true)
  have sign : signOf (c :: rest) = [] := signOf_of_ne notPlus notMinus rest
  rw [afterSign, isNegative, spaces, sign]
  exact ⟨rfl, rfl⟩

theorem stringToInteger_append (type : IntegerType) (baseGe : 2 ≤ base) (baseLe : base ≤ 36)
    (isDigits : Digits base ds) (stops : Stops rest) :
    stringToInteger type (ds ++ rest) base =
      ⟨expected type false (numeral base (digitValues ds)), ds.length,
        !decide (InRange type false (numeral base (digitValues ds)))⟩ := by
  obtain ⟨first, others, d, isFirst, digit⟩ := head_of_digits isDigits
  obtain ⟨behind, pos⟩ := plain_of_digitValue digit (others ++ rest)
  rw [← cons_append, ← isFirst] at behind pos
  have converted : type.convert base = base := convert_base (by omega) (by omega)
  have prefixed : skipPrefix (type.convert base) (afterSign (ds ++ rest)) =
      ((base : Int), ds ++ rest) := by
    rw [converted, behind, skipPrefix_append baseGe isDigits stops]
  have large := le_magnitude type (isNegative (ds ++ rest))
  obtain ⟨taken, dropped⟩ := takeWhile_digits isDigits stops
  rw [stringToInteger_eq (by omega) prefixed (by omega) (by omega), pos, taken, dropped,
    if_neg isDigits.1, length_append, Nat.add_sub_cancel]

theorem expected_small (type : IntegerType) {number : Nat} (small : number ≤ 2147483647) :
    expected type false number = number := by
  have bound := magnitude_lt type false
  have large := le_magnitude type false
  have inRange : InRange type false number := by
    rw [inRange_iff]
    exact small.trans large
  rw [expected]
  split_ifs
  · rfl
  change (number : Int) % 2 ^ type.bits = number
  have cast : (number : Int) % 2 ^ type.bits = (number % 2 ^ type.bits : Nat) := by
    rfl
  rw [cast, Nat.mod_eq_of_lt (by omega)]

theorem stringToInteger_numberText (type : IntegerType) (baseGe : 2 ≤ base) (baseLe : base ≤ 16)
    {number : Nat} (small : number ≤ 2147483647) (stops : Stops rest) :
    stringToInteger type (numberText base number ++ rest) base =
      ⟨number, (numberText base number).length, false⟩ := by
  have inRange : InRange type false number := by
    rw [inRange_iff]
    exact small.trans (le_magnitude type false)
  have value := expected_small type small
  rw [stringToInteger_append type baseGe (by omega) (digits_numberText baseGe baseLe number) stops,
    numeral_numberText baseGe baseLe, value, decide_eq_true inRange]
  rfl

end Conversion

end Mlibc.NumeralText
