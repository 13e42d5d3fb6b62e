import Mlibc.StringToIntegerRange

/-! # The end of the subject sequence -/

namespace Mlibc.StringToInteger

open IntegerText Option

def ValidBase (baseInt : Int) : Prop := baseInt = 0 ∨ 2 ≤ baseInt ∧ baseInt ≤ 36

instance (baseInt : Int) : Decidable (ValidBase baseInt) := inferInstanceAs (Decidable (_ ∨ _))

def ReportsSubject (text : List Int) (baseInt : Int) (result : Result) : Prop :=
  if ValidBase baseInt then
    ∃ length, LongestPrefix (Subject baseInt.toNat) text length ∧
      result.endptr = length.getD 0 ∧ (length = none → result.value = 0)
  else result.endptr = 0 ∧ result.value = 0

def BareBinaryPrefix (s : List Int) : Prop :=
  s.head? = some 48 ∧ (s[1]? = some 98 ∨ s[1]? = some 66) ∧ isDigitOf 2 (s.getD 2 0) = false

instance (s : List Int) : Decidable (BareBinaryPrefix s) := inferInstanceAs (Decidable (_ ∧ _))

def Handled (type : IntegerType) (text : List Int) (baseInt : Int) : Prop :=
  if ValidBase baseInt then
    ¬((baseInt = 0 ∨ baseInt = 2) ∧ BareBinaryPrefix (afterSign text))
  else baseInt = 1 ∨ (baseInt < 0 ∧ type.signed = true) ∨
    digitValue ((afterSign text).headD 0) = none

instance (type : IntegerType) (text : List Int) (baseInt : Int) :
    Decidable (Handled type text baseInt) :=
  inferInstanceAs (Decidable (ite _ _ _))

theorem expected_zero (type : IntegerType) (neg : Bool) : expected type neg 0 = 0 := by
  have inRange : InRange type neg 0 := (inRange_iff type neg 0).mpr (Nat.zero_le _)
  rw [expected]
  cases type.signed <;> cases neg <;> rfl

theorem isHexDigit_eq (c : Int) : isHexDigit c = isDigitOf 16 c := by
  unfold isDigitOf digitValue
  rw [Bool.eq_iff_iff]
  split
  · next none =>
      split_ifs at none with number upper lower
      simp [isHexDigit, isDigit, isUpper, isLower] at *
      omega
  · next d some =>
      split_ifs at some with number upper lower <;> cases some <;>
        simp [isHexDigit, isDigit, isUpper, isLower] at * <;> omega

section Prefix

variable {base : Nat} {s : List Int}

theorem isDigitOf_zero : isDigitOf base 0 = false := rfl

theorem prefixBase_eq : prefixBase base s =
    if (base = 0 ∨ base = 16) ∧ (s.head? = some 48 ∧ (s[1]? = some 120 ∨ s[1]? = some 88)) ∧
        isDigitOf 16 (s.getD 2 0) = true then some 16
    else if (base = 0 ∨ base = 2) ∧ (s.head? = some 48 ∧ (s[1]? = some 98 ∨ s[1]? = some 66)) ∧
        isDigitOf 2 (s.getD 2 0) = true then some 2
    else none := by
  match s with
  | [] => simp [prefixBase]
  | [a] => simp [prefixBase]
  | [a, b] => simp [prefixBase, isDigitOf_zero]
  | a :: ch :: c :: rest =>
    by_cases zero : a = 48
    · subst zero
      simp [prefixBase]
    have other : prefixBase base (a :: ch :: c :: rest) = none := by
      unfold prefixBase
      split
      · next isZero =>
          cases isZero
          exact absurd rfl zero
      · rfl
    simp [other, zero]

theorem skipPrefix_eq (handled : ¬((base = 0 ∨ base = 2) ∧ BareBinaryPrefix s)) :
    skipPrefix base s =
      match prefixBase base s with
      | some res => ((res : Int), s.drop 2)
      | none => ((plainBase base s : Int), s) := by
  have zero_iff : (base : Int) = 0 ↔ base = 0 := by omega
  have two_iff : (base : Int) = 2 ↔ base = 2 := by omega
  have eight_iff : (base : Int) = 8 ↔ base = 8 := by omega
  have sixteen_iff : (base : Int) = 16 ↔ base = 16 := by omega
  rw [prefixBase_eq]
  unfold skipPrefix plainBase
  simp only [isHexDigit_eq, zero_iff, two_iff, eight_iff, sixteen_iff]
  by_cases hex : (base = 0 ∨ base = 16) ∧
      (s.head? = some 48 ∧ (s[1]? = some 120 ∨ s[1]? = some 88)) ∧
      isDigitOf 16 (s.getD 2 0) = true
  · rw [if_pos hex, if_pos hex]
    rfl
  rw [if_neg hex, if_neg hex]
  by_cases bin : (base = 0 ∨ base = 2) ∧ s.head? = some 48 ∧ (s[1]? = some 98 ∨ s[1]? = some 66)
  · have digit : isDigitOf 2 (s.getD 2 0) = true := by
      rw [← Bool.not_eq_false]
      intro notDigit
      exact handled ⟨bin.1, bin.2.1, bin.2.2, notDigit⟩
    rw [if_pos bin, if_pos ⟨bin.1, bin.2, digit⟩]
    rfl
  have notCounted : ¬((base = 0 ∨ base = 2) ∧
      (s.head? = some 48 ∧ (s[1]? = some 98 ∨ s[1]? = some 66)) ∧
      isDigitOf 2 (s.getD 2 0) = true) :=
    fun counted => bin ⟨counted.1, counted.2.1⟩
  rw [if_neg bin, if_neg notCounted]
  by_cases zero : base = 0
  · by_cases octal : s.head? = some 48
    · simp [zero, octal]
    · simp [zero, octal]
  · by_cases eight : base = 8 ∧ s.head? = some 48
    · simp [eight.1]
    · simp [zero, eight]

theorem skipPrefix_bare (isBase : base = 0 ∨ base = 2) (bare : BareBinaryPrefix s) :
    skipPrefix base s = (2, s.drop 2) ∧ (s.drop 2).takeWhile (isDigitOf 2) = [] ∧
      bodyLength base s = some 1 := by
  obtain ⟨zero, ch, notDigit⟩ := bare
  obtain ⟨rest, rfl⟩ : ∃ rest, s = 48 :: rest := by
    cases s with
    | nil => cases zero
    | cons a rest =>
      cases zero
      exact ⟨rest, rfl⟩
  obtain ⟨b, rest, isCh, rfl⟩ : ∃ b more, (b = 98 ∨ b = 66) ∧ rest = b :: more := by
    cases rest with
    | nil => simp at ch
    | cons b more => exact ⟨b, more, by simpa using ch, rfl⟩
  have noHex : ¬(b = 120 ∨ b = 88) := by omega
  refine ⟨?_, ?_, ?_⟩
  · obtain rfl | rfl := isBase <;> simp [skipPrefix, noHex, isCh]
  · cases rest with
    | nil => rfl
    | cons c rest =>
      apply List.takeWhile_cons_of_neg
      rw [Bool.not_eq_true]
      exact notDigit
  have none : prefixBase base (48 :: b :: rest) = none := by
    rw [prefixBase_eq, if_neg, if_neg]
    · rintro ⟨_, _, digit⟩
      rw [notDigit] at digit
      cases digit
    · rintro ⟨_, ⟨_, hex⟩, _⟩
      exact noHex (by simpa using hex)
  have run : (48 :: b :: rest).takeWhile (isDigitOf (plainBase base (48 :: b :: rest))) = [48] := by
    obtain rfl | rfl := isBase <;> obtain rfl | rfl := isCh <;> rfl
  rw [bodyLength, none]
  simp only [digitsLength, run]
  rfl

end Prefix

theorem endptr_eq {text front s : List Int} {base : Nat} (split : text = front ++ s) :
    (if s.takeWhile (isDigitOf base) = [] then 0
      else text.length - (s.dropWhile (isDigitOf base)).length) =
      ((digitsLength base s).map (front.length + ·)).getD 0 := by
  unfold digitsLength
  split_ifs with none
  · rfl
  have whole := congrArg List.length (List.takeWhile_append_dropWhile (p := isDigitOf base)
    (l := s))
  rw [List.length_append] at whole
  rw [split, List.length_append, map_some, getD_some]
  omega

theorem digitsLength_pos {base n : Nat} {s : List Int} (ds : digitsLength base s = some n) :
    0 < n := by
  unfold digitsLength at ds
  split_ifs at ds with empty
  cases ds
  exact List.length_pos_iff.mpr empty

theorem digitValue_lt {c : Int} {d : Nat} (digit : digitValue c = some d) : d < 36 := by
  unfold digitValue at digit
  split_ifs at digit <;> cases digit <;> simp [isDigit, isUpper, isLower] at * <;> omega

theorem digitsLength_eq_none_iff {base : Nat} {s : List Int} (large : 36 < base) :
    digitsLength base s = none ↔ digitValue (s.headD 0) = none := by
  cases s with
  | nil => exact iff_of_true rfl rfl
  | cons c rest =>
    change _ ↔ digitValue c = none
    cases digit : digitValue c with
    | none =>
      have notDigit : ¬isDigitOf base c = true := by simp [isDigitOf, digit]
      rw [digitsLength, if_pos (List.takeWhile_cons_of_neg notDigit)]
    | some d =>
      have small := digitValue_lt digit
      have isDigit : isDigitOf base c = true := by
        rw [isDigitOf, digit]
        exact decide_eq_true (by omega)
      rw [digitsLength, List.takeWhile_cons_of_pos isDigit]
      simp

section Bases

variable {type : IntegerType} {text : List Int} {baseInt : Int}

theorem stringToInteger_run {base : Nat} {front s : List Int} (split : text = front ++ s)
    (acc : ¬(type.convert baseInt < 0 ∨ type.convert baseInt = 1))
    (prefixed : skipPrefix (type.convert baseInt) (afterSign text) = ((base : Int), s))
    (pos : 0 < base) (baseLe : base ≤ magnitude type (isNegative text)) :
    (stringToInteger type text baseInt).endptr =
        ((digitsLength base s).map (front.length + ·)).getD 0 ∧
      (digitsLength base s = none → (stringToInteger type text baseInt).value = 0) := by
  rw [stringToInteger_eq acc prefixed pos baseLe, ← endptr_eq split]
  refine ⟨rfl, ?_⟩
  intro none
  have empty : s.takeWhile (isDigitOf base) = [] := by
    unfold digitsLength at none
    split_ifs at none with empty
    exact empty
  simp only [empty]
  exact expected_zero type (isNegative text)

theorem reportsSubject_iff {base : Nat} {result : Result}
    (valid : base = 0 ∨ 2 ≤ base ∧ base ≤ 36) :
    ReportsSubject text base result ↔
      result.endptr = ((bodyLength base (afterSign text)).map ((lead text).length + ·)).getD 0 ∧
        (bodyLength base (afterSign text) = none → result.value = 0) := by
  have isValid : ValidBase base := by
    unfold ValidBase
    omega
  have longest := longest_subject (longest_body base (afterSign text))
  rw [ReportsSubject, if_pos isValid]
  constructor
  · rintro ⟨length, isLongest, endptr, value⟩
    obtain rfl := isLongest.unique longest
    refine ⟨endptr, fun none => value ?_⟩
    rw [none]
    rfl
  · rintro ⟨endptr, value⟩
    exact ⟨_, longest, endptr, fun none => value (map_eq_none_iff.mp none)⟩

theorem reports_valid {base : Nat} (valid : base = 0 ∨ 2 ≤ base ∧ base ≤ 36) :
    ReportsSubject text base (stringToInteger type text base) ↔
      ¬((base = 0 ∨ base = 2) ∧ BareBinaryPrefix (afterSign text)) := by
  have converted : type.convert base = base := convert_base (by omega) (by omega)
  have acc : ¬(type.convert base < 0 ∨ type.convert base = 1) := by omega
  have large := le_magnitude type (isNegative text)
  have text_eq := (lead_append_afterSign text).symm
  rw [reportsSubject_iff valid]
  by_cases handled : (base = 0 ∨ base = 2) ∧ BareBinaryPrefix (afterSign text)
  · obtain ⟨prefixed, empty, length⟩ := skipPrefix_bare handled.1 handled.2
    refine iff_of_false ?_ (not_not_intro handled)
    rintro ⟨endptr, _⟩
    have two : skipPrefix (type.convert base) (afterSign text) =
        (((2 : Nat) : Int), (afterSign text).drop 2) := by
      rw [converted]
      exact prefixed
    rw [stringToInteger_eq acc two (by decide) (by omega), if_pos empty, length] at endptr
    simp at endptr
  refine iff_of_true ?_ handled
  have prefixed := skipPrefix_eq handled
  rw [← converted] at prefixed
  unfold bodyLength
  cases counted : prefixBase base (afterSign text) with
  | some res =>
    rw [counted] at prefixed
    obtain ⟨ch, c, rest, split, _, isCh, _⟩ := prefix_of_prefixBase counted
    have bounds : 0 < res ∧ res ≤ 16 := by
      unfold isPrefixLetter at isCh
      omega
    have behind : text = (lead text ++ [48, ch]) ++ c :: rest := by
      rw [List.append_assoc]
      exact text_eq.trans (congrArg (lead text ++ ·) split)
    have dropped : (afterSign text).drop 2 = c :: rest := by
      rw [split]
      rfl
    rw [dropped] at prefixed ⊢
    obtain ⟨endptr, value⟩ := stringToInteger_run behind acc prefixed bounds.1 (by omega)
    refine ⟨?_, fun none => value (map_eq_none_iff.mp none)⟩
    rw [endptr, map_map, List.length_append]
    congr 2
    funext n
    exact add_assoc _ 2 n
  | none =>
    rw [counted] at prefixed
    have bounds : 0 < plainBase base (afterSign text) ∧ plainBase base (afterSign text) ≤ 36 := by
      unfold plainBase
      split_ifs <;> omega
    exact stringToInteger_run text_eq acc prefixed bounds.1 (by omega)

theorem reports_other {base : Nat} (converted : type.convert baseInt = base) (large : 36 < base)
    (baseLe : base ≤ magnitude type (isNegative text)) :
    ((stringToInteger type text baseInt).endptr = 0 ∧
        (stringToInteger type text baseInt).value = 0) ↔
      digitValue ((afterSign text).headD 0) = none := by
  have acc : ¬(type.convert baseInt < 0 ∨ type.convert baseInt = 1) := by omega
  have prefixed : skipPrefix (type.convert baseInt) (afterSign text) =
      ((base : Int), afterSign text) := by
    have zero : ¬(base : Int) = 0 := by omega
    have two : ¬(base : Int) = 2 := by omega
    have eight : ¬(base : Int) = 8 := by omega
    have sixteen : ¬(base : Int) = 16 := by omega
    rw [converted]
    simp only [skipPrefix, zero, two, eight, sixteen, false_or, false_and, if_false]
  obtain ⟨endptr, value⟩ := stringToInteger_run (lead_append_afterSign text).symm acc
    prefixed (by omega) baseLe
  rw [← digitsLength_eq_none_iff large]
  constructor
  · rintro ⟨atStart, _⟩
    rw [endptr] at atStart
    cases ds : digitsLength base (afterSign text) with
    | none => rfl
    | some n =>
      have pos := digitsLength_pos ds
      rw [ds, map_some, getD_some] at atStart
      omega
  · intro none
    refine ⟨?_, value none⟩
    rw [endptr, none]
    rfl

theorem le_two_pow_bits (type : IntegerType) : (4294967296 : Int) ≤ 2 ^ type.bits := by
  obtain ⟨bits, signed, rfl | rfl⟩ := type <;> norm_num

theorem magnitude_unsigned (isUnsigned : type.signed = false) (neg : Bool) :
    (magnitude type neg : Int) = 2 ^ type.bits - 1 := by
  obtain ⟨bits, signed, rfl | rfl⟩ := type <;> cases isUnsigned <;> rfl

theorem refused_reports (refused : type.convert baseInt < 0 ∨ type.convert baseInt = 1) :
    (stringToInteger type text baseInt).endptr = 0 ∧
      (stringToInteger type text baseInt).value = 0 := by
  simp only [stringToInteger, if_pos refused, and_self]

theorem reports_invalid (invalid : ¬ValidBase baseInt)
    (isInt : -2 ^ 31 ≤ baseInt ∧ baseInt < 2 ^ 31) :
    ((stringToInteger type text baseInt).endptr = 0 ∧
        (stringToInteger type text baseInt).value = 0) ↔
      (baseInt = 1 ∨ (baseInt < 0 ∧ type.signed = true) ∨
        digitValue ((afterSign text).headD 0) = none) := by
  unfold ValidBase at invalid
  have large := le_magnitude type (isNegative text)
  by_cases one : baseInt = 1
  · have converted : type.convert baseInt = 1 := by rw [convert_base (by omega) (by omega), one]
    exact iff_of_true (refused_reports (.inr converted)) (.inl one)
  by_cases below : baseInt < 0
  · have converted : type.convert baseInt =
        if type.signed then baseInt else 2 ^ type.bits + baseInt := by
      have above := isInt.1
      obtain ⟨bits, signed, rfl | rfl⟩ := type <;> cases signed <;>
        simp [IntegerType.convert] <;> omega
    cases isSigned : type.signed with
    | true =>
      rw [isSigned, if_pos rfl] at converted
      exact iff_of_true (refused_reports (.inl (by omega))) (.inr (.inl ⟨below, rfl⟩))
    | false =>
      have limit := magnitude_unsigned isSigned (isNegative text)
      have wide := le_two_pow_bits type
      rw [isSigned, if_neg Bool.false_ne_true] at converted
      have isBase : type.convert baseInt = ((type.convert baseInt).toNat : Int) := by omega
      rw [reports_other isBase (by omega) (by omega)]
      simp [one]
  · have converted : type.convert baseInt = (baseInt.toNat : Int) := by
      rw [convert_base (by omega) (by omega)]
      omega
    rw [reports_other converted (by omega) (by omega)]
    simp [one, below]

/-- `stringToInteger` reports the longest subject sequence exactly for the valid bases where no bare
binary prefix counts, and for the other bases that it refuses or finds no digit for. -/
theorem stringToInteger_reports_iff (type : IntegerType) (text : List Int) {baseInt : Int}
    (isInt : -2 ^ 31 ≤ baseInt ∧ baseInt < 2 ^ 31) :
    ReportsSubject text baseInt (stringToInteger type text baseInt) ↔
      Handled type text baseInt := by
  by_cases valid : ValidBase baseInt
  · obtain ⟨base, rfl⟩ : ∃ base : Nat, baseInt = base := by
      unfold ValidBase at valid
      exact ⟨baseInt.toNat, by omega⟩
    have bounds : base = 0 ∨ 2 ≤ base ∧ base ≤ 36 := by
      unfold ValidBase at valid
      omega
    have zero_iff : (base : Int) = 0 ↔ base = 0 := by omega
    have two_iff : (base : Int) = 2 ↔ base = 2 := by omega
    rw [reports_valid bounds, Handled, if_pos valid, zero_iff, two_iff]
  · rw [ReportsSubject, if_neg valid, Handled, if_neg valid]
    exact reports_invalid valid isInt

theorem stringToInteger_reports_prefixes :
    ReportsSubject [48, 120] 0 (stringToInteger ⟨64, true, .inr rfl⟩ [48, 120] 0) ∧
      ReportsSubject [45, 48, 98, 49, 49] 2
        (stringToInteger ⟨32, false, .inl rfl⟩ [45, 48, 98, 49, 49] 2) := by
  constructor
  · apply (stringToInteger_reports_iff _ _ (by decide)).mpr
    decide
  · apply (stringToInteger_reports_iff _ _ (by decide)).mpr
    decide

/-- "0b2" begins with the number zero; the bases 40 and -5 are not refused. -/
theorem stringToInteger_misreports :
    ¬ReportsSubject [48, 98, 50] 0 (stringToInteger ⟨64, true, .inr rfl⟩ [48, 98, 50] 0) ∧
      ¬ReportsSubject [122, 122] 40 (stringToInteger ⟨64, true, .inr rfl⟩ [122, 122] 40) ∧
      ¬ReportsSubject [122, 122] (-5) (stringToInteger ⟨64, false, .inr rfl⟩ [122, 122] (-5)) := by
  refine ⟨?_, ?_, ?_⟩
  · intro reports
    apply (reports_valid (.inl rfl)).mp reports
    decide
  · intro reports
    exact absurd reports.1 (by decide)
  · intro reports
    exact absurd reports.1 (by decide)

end Bases

end Mlibc.StringToInteger
