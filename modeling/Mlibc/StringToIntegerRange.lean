import Mathlib.Tactic.NormNum
import Mlibc.StringToInteger

/-! # The value of the digits -/

namespace Mlibc.StringToInteger

open IntegerText List Loop

def numeral (base : Nat) (ds : List Nat) : Nat :=
  ds.foldl (fun total digit => total * base + digit) 0

def magnitude (type : IntegerType) (neg : Bool) : Nat :=
  if type.signed then if neg then 2 ^ (type.bits - 1) else 2 ^ (type.bits - 1) - 1
  else 2 ^ type.bits - 1

section Limits

variable (type : IntegerType) (neg : Bool)

theorem magnitude_lt : magnitude type neg < 2 ^ type.bits := by
  obtain ⟨bits, signed, rfl | rfl⟩ := type <;> cases signed <;> cases neg <;> decide

theorem le_magnitude : 2147483647 ≤ magnitude type neg := by
  obtain ⟨bits, signed, rfl | rfl⟩ := type <;> cases signed <;> cases neg <;> decide

theorem toUnsigned_of_lt {n : Nat} (small : n < 2 ^ type.bits) : type.toUnsigned n = n := by
  unfold IntegerType.toUnsigned
  have cast : (n : Int) % 2 ^ type.bits = (n % 2 ^ type.bits : Nat) := by push_cast; rfl
  rw [cast, Nat.mod_eq_of_lt small, Int.toNat_natCast]

theorem cutoffs_eq (base : Nat) : cutoffs type base neg =
      (magnitude type neg / base, magnitude type neg % base) := by
  have limit : magnitude type neg < 2 ^ type.bits := magnitude_lt type neg
  have quotient : type.toUnsigned ((magnitude type neg / base : Nat) : Int) =
      magnitude type neg / base :=
    toUnsigned_of_lt type ((Nat.div_le_self _ _).trans_lt limit)
  have remainder : type.toUnsigned ((magnitude type neg % base : Nat) : Int) =
      magnitude type neg % base :=
    toUnsigned_of_lt type ((Nat.mod_le _ _).trans_lt limit)
  have max_eq : type.max = magnitude type false := by
    obtain ⟨bits, signed, rfl | rfl⟩ := type <;> cases signed <;> rfl
  have min_eq (isSigned : type.signed = true) : type.min = -(magnitude type true : Int) := by
    obtain ⟨bits, signed, rfl | rfl⟩ := type <;> cases isSigned <;> rfl
  have unsigned (notSigned : type.signed = false) : magnitude type neg = magnitude type false := by
    unfold magnitude
    rw [notSigned]
    rfl
  unfold cutoffs
  cases isSigned : type.signed with
  | false =>
    rw [if_neg (by simp), max_eq, ← unsigned isSigned, ← Int.ofNat_tdiv, ← Int.ofNat_tmod,
      quotient, remainder]
  | true =>
    rw [if_pos rfl]
    cases neg with
    | false =>
      simp only [Bool.false_eq_true, if_false]
      rw [max_eq, ← Int.ofNat_tdiv, ← Int.ofNat_tmod, quotient, remainder]
    | true =>
      simp only [if_true]
      rw [min_eq isSigned, Int.neg_tdiv_neg, Int.neg_tmod, neg_neg, ← Int.ofNat_tdiv,
        ← Int.ofNat_tmod, quotient, remainder]

end Limits

section Digits

variable {type : IntegerType} {neg : Bool} {base : Nat}

theorem numeral_append (ds : List Nat) (digit : Nat) :
    numeral base (ds ++ [digit]) = numeral base ds * base + digit := by
  rw [numeral, foldl_append]
  rfl

theorem exceeds_iff {total digit limit : Nat} (small : digit < base) :
    (total > limit / base ∨ total = limit / base ∧ digit > limit % base) ↔
      limit < total * base + digit := by
  have decomposed := Nat.div_add_mod limit base
  have rest : limit % base < base := Nat.mod_lt limit (Nat.zero_lt_of_lt small)
  rw [mul_comm] at decomposed
  obtain less | same | greater := Nat.lt_trichotomy total (limit / base)
  · have bound : total * base + base ≤ limit / base * base := by
      rw [← Nat.succ_mul]
      exact Nat.mul_le_mul_right base less
    omega
  · subst same
    omega
  · have bound : limit / base * base + base ≤ total * base := by
      rw [← Nat.succ_mul]
      exact Nat.mul_le_mul_right base greater
    omega

def Loop.Holds (type : IntegerType) (neg : Bool) (base : Nat) (loop : Loop)
    (ds : List Nat) : Prop :=
  (loop.outOfRange = true ↔ magnitude type neg < numeral base ds) ∧
    (loop.outOfRange = false → loop.totalValue = numeral base ds)

variable {loop : Loop}

theorem Loop.Holds.step {ds : List Nat} {digit : Nat}
    (holds : loop.Holds type neg base ds) (small : digit < base) :
    (loop.step type base (cutoffs type base neg) digit).Holds type neg base (ds ++ [digit]) := by
  obtain ⟨range, total⟩ := holds
  have pos : 0 < base := Nat.zero_lt_of_lt small
  rw [cutoffs_eq, Loop.step]
  split_ifs with out exceeds
  · have already := range.mp out
    have grows : numeral base ds ≤ numeral base ds * base := Nat.le_mul_of_pos_right _ pos
    refine ⟨iff_of_true out ?_, fun inRange => absurd out (by simp [inRange])⟩
    rw [numeral_append]
    omega
  · rw [exceeds_iff small, total (by simpa using out)] at exceeds
    refine ⟨iff_of_true rfl ?_, fun inRange => absurd inRange (by simp)⟩
    rw [numeral_append]
    exact exceeds
  have inRange : loop.outOfRange = false := by simpa using out
  rw [exceeds_iff small, total inRange] at exceeds
  have fits : numeral base ds * base + digit < 2 ^ type.bits :=
    (not_lt.mp exceeds).trans_lt (magnitude_lt type neg)
  refine ⟨iff_of_false out ?_, ?_⟩
  · rw [numeral_append]
    exact exceeds
  intro _
  rw [total inRange, numeral_append]
  exact_mod_cast toUnsigned_of_lt type fits

variable {limits : Nat × Nat}

theorem convertDigits_of_not {s : List Int} (bound : base < 2 ^ type.bits)
    (none : s.takeWhile (isDigitOf base) = []) :
    convertDigits type base limits s loop = (loop, s) := by
  cases s with
  | nil => rfl
  | cons c rest =>
    have notDigit : ¬isDigitOf base c = true := by
      intro isDigit
      rw [takeWhile_cons_of_pos isDigit] at none
      cases none
    unfold convertDigits
    unfold isDigitOf at notDigit
    cases digit : digitValue c with
    | none => rfl
    | some d =>
      rw [digit] at notDigit
      simp only [decide_eq_true_eq] at notDigit
      simp only [toUnsigned_of_lt type bound]
      rw [if_pos (not_lt.mp notDigit)]

theorem convertDigits_cons {c : Int} {rest : List Int} {d : Nat} (bound : base < 2 ^ type.bits)
    (digit : digitValue c = some d) (small : d < base) :
    convertDigits type base limits (c :: rest) loop =
      convertDigits type base limits rest (loop.step type base limits d) := by
  rw [convertDigits, digit]
  simp only [toUnsigned_of_lt type bound]
  rw [if_neg (Nat.not_le_of_lt small)]

def digitValues (word : List Int) : List Nat := word.filterMap digitValue

theorem convertDigits_holds {ds : List Nat} (bound : base < 2 ^ type.bits) (s : List Int)
    (holds : loop.Holds type neg base ds) :
    (convertDigits type base (cutoffs type base neg) s loop).1.Holds type neg base
        (ds ++ digitValues (s.takeWhile (isDigitOf base))) ∧
      (convertDigits type base (cutoffs type base neg) s loop).2 =
        s.dropWhile (isDigitOf base) := by
  induction s generalizing loop ds with
  | nil =>
    rw [takeWhile_nil, digitValues, filterMap_nil, append_nil]
    exact ⟨holds, rfl⟩
  | cons c rest ih =>
    by_cases isDigit : isDigitOf base c = true
    · obtain ⟨d, small, digit⟩ := digitValue_of_isDigitOf isDigit
      have moved := ih (holds.step small)
      rw [append_assoc] at moved
      rw [convertDigits_cons bound digit small, takeWhile_cons_of_pos isDigit,
        dropWhile_cons_of_pos isDigit, digitValues, filterMap_cons_some digit]
      exact moved
    · have none : (c :: rest).takeWhile (isDigitOf base) = [] := takeWhile_cons_of_neg isDigit
      rw [convertDigits_of_not bound none, none, dropWhile_cons_of_neg isDigit,
        digitValues, filterMap_nil, append_nil]
      exact ⟨holds, rfl⟩

theorem convertedAny_step (digit : Nat) (any : loop.convertedAny = true) :
    (loop.step type base limits digit).convertedAny = true := by
  unfold step
  split_ifs
  · exact any
  · exact any
  · rfl

theorem convertedAny_convertDigits (s : List Int) (any : loop.convertedAny = true) :
    (convertDigits type base limits s loop).1.convertedAny = true := by
  induction s generalizing loop with
  | nil => exact any
  | cons c rest ih =>
    unfold convertDigits
    split
    · exact any
    · split_ifs
      · exact any
      · exact ih (convertedAny_step _ any)

def Loop.start : Loop := ⟨0, false, false⟩

theorem holds_start : start.Holds type neg base [] := by
  refine ⟨iff_of_false (by decide) ?_, fun _ => rfl⟩
  exact Nat.not_lt_zero _

theorem convertedAny_iff (pos : 0 < base) (baseLe : base ≤ magnitude type neg) (s : List Int) :
    (convertDigits type base (cutoffs type base neg) s start).1.convertedAny = true ↔
      s.takeWhile (isDigitOf base) ≠ [] := by
  have bound : base < 2 ^ type.bits := baseLe.trans_lt (magnitude_lt type neg)
  constructor
  · intro any none
    rw [convertDigits_of_not bound none] at any
    cases any
  intro some
  cases s with
  | nil => exact absurd rfl some
  | cons c rest =>
    have isDigit : isDigitOf base c = true := by
      by_contra notDigit
      exact some (takeWhile_cons_of_neg notDigit)
    obtain ⟨d, small, digit⟩ := digitValue_of_isDigitOf isDigit
    rw [convertDigits_cons bound digit small]
    apply convertedAny_convertDigits
    rw [cutoffs_eq]
    have quotient : 0 < magnitude type neg / base := Nat.div_pos baseLe pos
    have inside : ¬(start.totalValue > magnitude type neg / base ∨
        start.totalValue = magnitude type neg / base ∧ d > magnitude type neg % base) := by
      simp only [start]
      omega
    rw [step, if_neg (by decide), if_neg inside]

end Digits

def signedNumber (neg : Bool) (number : Nat) : Int :=
  if neg then -(number : Int) else number

/-- The number with its sign is in the range of the type; for an unsigned type the magnitude
is. -/
def InRange (type : IntegerType) (neg : Bool) (number : Nat) : Prop :=
  if type.signed then
    type.min ≤ signedNumber neg number ∧ signedNumber neg number ≤ type.max
  else (number : Int) ≤ type.max

theorem inRange_iff (type : IntegerType) (neg : Bool) (number : Nat) :
    InRange type neg number ↔ number ≤ magnitude type neg := by
  obtain ⟨bits, signed, rfl | rfl⟩ := type <;> cases signed <;> cases neg <;>
    simp [InRange, signedNumber, IntegerType.min, IntegerType.max, magnitude]

instance (type : IntegerType) (neg : Bool) (number : Nat) : Decidable (InRange type neg number) :=
  decidable_of_iff _ (inRange_iff type neg number).symm

def expected (type : IntegerType) (neg : Bool) (number : Nat) : Int :=
  if InRange type neg number then
    if type.signed then signedNumber neg number
    else signedNumber neg number % 2 ^ type.bits
  else if type.signed ∧ neg then type.min else type.max

theorem value_of_holds {type : IntegerType} {neg : Bool} {base : Nat} {loop : Loop}
    {ds : List Nat} (holds : loop.Holds type neg base ds) :
    loop.value type neg = expected type neg (numeral base ds) := by
  obtain ⟨range, total⟩ := holds
  unfold value expected
  cases out : loop.outOfRange with
  | true =>
    have exceeds : ¬InRange type neg (numeral base ds) := by
      rw [inRange_iff]
      exact Nat.not_le_of_lt (range.mp out)
    rw [if_neg exceeds]
    cases type.signed <;> cases neg <;> rfl
  | false =>
    have fits : numeral base ds ≤ magnitude type neg := by
      apply Nat.le_of_not_lt
      rw [← range, out]
      exact Bool.false_ne_true
    rw [if_pos ((inRange_iff _ _ _).mpr fits), total out]
    obtain ⟨bits, signed, rfl | rfl⟩ := type <;> cases signed <;> cases neg <;>
      simp [IntegerType.convert, IntegerType.toUnsigned, signedNumber, magnitude] at fits ⊢ <;>
      omega

section Text

variable {type : IntegerType} {base : Nat} {ds : List Int}

theorem skipPrefix_digits (baseGe : 2 ≤ base) (isDigits : Digits base ds) :
    skipPrefix base ds = ((base : Int), ds) := by
  have second {c : Int} (here : ds[1]? = some c) : isDigitOf base c = true :=
    isDigits.2 c (mem_of_getElem? here)
  have nz : ¬(base : Int) = 0 := by omega
  unfold skipPrefix
  simp only [nz, false_or, if_false]
  rw [if_neg, if_neg]
  · split_ifs with octal
    · rw [octal.1]
    · rfl
  · rintro ⟨isTwo, _, ch | ch⟩
    · have digit := second ch
      rw [Int.ofNat_inj.mp isTwo] at digit
      exact absurd digit (by decide)
    · have digit := second ch
      rw [Int.ofNat_inj.mp isTwo] at digit
      exact absurd digit (by decide)
  · rintro ⟨isSixteen, ⟨_, ch | ch⟩, _⟩
    · have digit := second ch
      rw [Int.ofNat_inj.mp isSixteen] at digit
      exact absurd digit (by decide)
    · have digit := second ch
      rw [Int.ofNat_inj.mp isSixteen] at digit
      exact absurd digit (by decide)

theorem convert_base {baseInt : Int} (nonnegative : 0 ≤ baseInt) (small : baseInt < 2 ^ 31) :
    type.convert baseInt = baseInt := by
  obtain ⟨bits, signed, rfl | rfl⟩ := type <;> cases signed <;> simp [IntegerType.convert] <;> omega

theorem skipSign_eq (s : List Int) :
    skipSign s = (decide (signOf s = [45]), s.drop (signOf s).length) := by
  cases s with
  | nil => rfl
  | cons c rest =>
    by_cases isMinus : c = 45
    · subst isMinus
      rfl
    by_cases isPlus : c = 43
    · subst isPlus
      rfl
    rw [signOf_of_ne isPlus isMinus, skipSign, if_neg, if_neg]
    · rfl
    · exact fun isSome => isPlus (Option.some.inj isSome)
    · exact fun isSome => isMinus (Option.some.inj isSome)

theorem outOfRange_iff {neg : Bool} {loop : Loop} {values : List Nat}
    (holds : loop.Holds type neg base values) :
    loop.outOfRange = true ↔ ¬InRange type neg (numeral base values) := by
  rw [holds.1, inRange_iff, not_le]

theorem base_lt (type : IntegerType) (baseLe : base ≤ 36) : base < 2 ^ type.bits := by
  have small := le_magnitude type false
  have large := magnitude_lt type false
  omega

/-- As long as the number is in the range, the total of the loop is the number of the digits so far.
-/
theorem loop_number (type : IntegerType) (neg : Bool) (baseLe : base ≤ 36) {word : List Int}
    (all : ∀ c ∈ word, isDigitOf base c = true) :
    let loop := (convertDigits type base (cutoffs type base neg) word start).1
    (loop.outOfRange = true ↔ ¬InRange type neg (numeral base (digitValues word))) ∧
      (loop.outOfRange = false → loop.totalValue = numeral base (digitValues word) ∧
        numeral base (digitValues word) < 2 ^ type.bits) := by
  intro loop
  have begins : start.Holds type neg base [] := holds_start
  have holds := (convertDigits_holds (base_lt type baseLe) word begins).1
  rw [takeWhile_eq_self_iff.mpr all, nil_append] at holds
  refine ⟨outOfRange_iff holds, ?_⟩
  intro inside
  refine ⟨holds.2 inside, ?_⟩
  have fits : ¬magnitude type neg < numeral base (digitValues word) := by
    rw [← holds.1, inside]
    exact Bool.false_ne_true
  have limit := magnitude_lt type neg
  omega

def isNegative (text : List Int) : Bool := decide (signOf (text.dropWhile isSpace) = [45])

theorem stringToInteger_eq {text s : List Int} {baseInt : Int}
    (acc : ¬(type.convert baseInt < 0 ∨ type.convert baseInt = 1))
    (prefixed : skipPrefix (type.convert baseInt) (afterSign text) = ((base : Int), s))
    (pos : 0 < base) (baseLe : base ≤ magnitude type (isNegative text)) :
    stringToInteger type text baseInt = ⟨expected type (isNegative text)
          (numeral base (digitValues (s.takeWhile (isDigitOf base)))),
        if s.takeWhile (isDigitOf base) = [] then 0
        else text.length - (s.dropWhile (isDigitOf base)).length,
        !decide (InRange type (isNegative text)
          (numeral base (digitValues (s.takeWhile (isDigitOf base)))))⟩ := by
  have bound : base < 2 ^ type.bits :=
    baseLe.trans_lt (magnitude_lt type (isNegative text))
  have start : start.Holds type (isNegative text) base [] := holds_start
  obtain ⟨holds, rest⟩ := convertDigits_holds bound s start
  have any := convertedAny_iff pos baseLe s
  have sign : skipSign (text.dropWhile isSpace) = (isNegative text, afterSign text) := skipSign_eq _
  simp only [stringToInteger, if_neg acc, sign, prefixed]
  change Result.mk (value type (isNegative text)
    (convertDigits type base (cutoffs type base (isNegative text)) s Loop.start).1) _ _ = _
  rw [value_of_holds holds, Result.mk.injEq]
  refine ⟨rfl, ?_, ?_⟩
  · change (if (convertDigits type base _ s Loop.start).1.convertedAny = true then
      text.length - (convertDigits type base _ s Loop.start).2.length else 0) = _
    rw [rest]
    by_cases none : s.takeWhile (isDigitOf base) = []
    · rw [if_neg (mt any.mp (not_not_intro none)), if_pos none]
    · rw [if_pos (any.mpr none), if_neg none]
  · have outOfRange := outOfRange_iff holds
    rw [Bool.eq_iff_iff, Bool.not_eq_true', decide_eq_false_iff_not]
    exact outOfRange

/-- On a sign and digits, `ERANGE` says whether the number is out of range, and the value is the
number or the nearest limit. -/
theorem stringToInteger_number (type : IntegerType) {base : Nat} (baseGe : 2 ≤ base)
    (baseLe : base ≤ 36) {sign ds : List Int} (isSign : Sign sign)
    (isDigits : Digits base ds) :
    stringToInteger type (sign ++ ds) base =
        ⟨expected type (decide (sign = [45])) (numeral base (digitValues ds)), (sign ++ ds).length,
          !decide (InRange type (decide (sign = [45])) (numeral base (digitValues ds)))⟩ ∧
      ∀ front back, ds = front ++ back →
        let limits := cutoffs type base (decide (sign = [45]))
        let loop := (convertDigits type base limits front start).1
        (loop.outOfRange = true ↔
          ¬InRange type (decide (sign = [45])) (numeral base (digitValues front))) ∧
        (loop.outOfRange = false → loop.totalValue = numeral base (digitValues front) ∧
            numeral base (digitValues front) < 2 ^ type.bits) := by
  constructor
  · have begins : sign = [] → ∀ c ∈ ds.head?, isSpace c = false ∧ c ≠ 43 ∧ c ≠ 45 := by
      rintro - c head
      obtain ⟨first, rest, d, rfl, digit⟩ := head_of_digits isDigits
      cases head
      exact other_of_digitValue digit
    have noSpaces : ∀ c ∈ ([] : List Int), isSpace c = true := by simp
    have behind : afterSign (sign ++ ds) = ds := afterSign_append noSpaces isSign begins
    have spaces : (sign ++ ds).dropWhile isSpace = sign ++ ds :=
      dropWhile_isSpace_append noSpaces isSign begins
    have neg : isNegative (sign ++ ds) = decide (sign = [45]) := by
      rw [isNegative, spaces, signOf_append isSign begins]
    have converted : type.convert base = base := convert_base (by omega) (by omega)
    have prefixed : skipPrefix (type.convert base) (afterSign (sign ++ ds)) =
        ((base : Int), ds) := by
      rw [converted, behind, skipPrefix_digits baseGe isDigits]
    have large := le_magnitude type (isNegative (sign ++ ds))
    rw [stringToInteger_eq (by omega) prefixed (by omega) (by omega), neg,
      takeWhile_eq_self_iff.mpr isDigits.2, if_neg isDigits.1,
      dropWhile_eq_nil_iff.mpr isDigits.2]
    rfl
  · intro front back split
    apply loop_number type _ baseLe
    intro c mem
    apply isDigits.2
    rw [split]
    exact mem_append_left back mem

theorem stringToInteger_number_limits : stringToInteger ⟨64, true, .inr rfl⟩
        ([45] ++ [57, 50, 50, 51, 51, 55, 50, 48, 51, 54, 56, 53, 52, 55, 55, 53, 56, 48, 56])
        (10 : Nat) = ⟨-9223372036854775808, 20, false⟩ ∧
      stringToInteger ⟨64, true, .inr rfl⟩
        ([45] ++ [57, 50, 50, 51, 51, 55, 50, 48, 51, 54, 56, 53, 52, 55, 55, 53, 56, 48, 57])
        (10 : Nat) = ⟨-9223372036854775808, 20, true⟩ := by
  constructor
  · rw [(stringToInteger_number _ (by decide) (by decide) (.inr (.inr rfl))
      ⟨by decide, by decide⟩).1]
    decide
  · rw [(stringToInteger_number _ (by decide) (by decide) (.inr (.inr rfl))
      ⟨by decide, by decide⟩).1]
    decide

end Text

end Mlibc.StringToInteger
