import Mlibc.IntegerText

/-! # Numbers with a point and an exponent -/

namespace Mlibc.FloatText

open IntegerText List

def toLower (c : Int) : Int := if isUpper c then c + 32 else c

/-- The digits of a number and the letters that begin its exponent. -/
structure Numerals where
  isNumeral : Int → Bool
  isLetter : Int → Bool
  other_of_isNumeral : ∀ c, isNumeral c = true → 48 ≤ c ∧ toLower c ≠ 105 ∧ toLower c ≠ 110
  not_isNumeral_of_isLetter : ∀ c, isLetter c = true → isNumeral c = false ∧ c ≠ 46

theorem other_of_isHexDigit (c : Int) (digit : isHexDigit c = true) :
    48 ≤ c ∧ toLower c ≠ 105 ∧ toLower c ≠ 110 := by
  simp [isHexDigit, isDigit] at digit
  unfold toLower isUpper
  split_ifs <;> simp at * <;> omega

theorem other_of_isDigit (c : Int) (digit : isDigit c = true) :
    48 ≤ c ∧ toLower c ≠ 105 ∧ toLower c ≠ 110 :=
  other_of_isHexDigit c (by simp [isHexDigit, digit])

theorem not_isDigit_of_isLetter (c : Int) (ch : (c = 101 || c = 69) = true) :
    isDigit c = false ∧ c ≠ 46 := by
  simp [isDigit] at ch ⊢
  omega

theorem not_isHexDigit_of_isLetter (c : Int) (ch : (c = 112 || c = 80) = true) :
    isHexDigit c = false ∧ c ≠ 46 := by
  simp [isHexDigit, isDigit] at ch ⊢
  omega

def decimal : Numerals where
  isNumeral := isDigit
  isLetter c := c = 101 || c = 69
  other_of_isNumeral := other_of_isDigit
  not_isNumeral_of_isLetter := not_isDigit_of_isLetter

def hexadecimal : Numerals where
  isNumeral := isHexDigit
  isLetter c := c = 112 || c = 80
  other_of_isNumeral := other_of_isHexDigit
  not_isNumeral_of_isLetter := not_isHexDigit_of_isLetter

namespace Numerals

variable (numerals : Numerals)

def Exponent (word : List Int) : Prop :=
  word = [] ∨ ∃ ch sign ds, word = ch :: (sign ++ ds) ∧
    numerals.isLetter ch = true ∧ Sign sign ∧ ds ≠ [] ∧ ∀ c ∈ ds, isDigit c = true

def Number (word : List Int) : Prop :=
  ∃ whole fraction exponent, (∀ c ∈ whole, numerals.isNumeral c = true) ∧
    (∀ c ∈ fraction, numerals.isNumeral c = true) ∧ numerals.Exponent exponent ∧
    whole ++ fraction ≠ [] ∧
    (word = whole ++ 46 :: (fraction ++ exponent) ∨ fraction = [] ∧ word = whole ++ exponent)

def exponentOf : List Int → List Int
  | [] => []
  | ch :: rest =>
    let ds := (rest.drop (signOf rest).length).takeWhile isDigit
    if numerals.isLetter ch = true ∧ ds ≠ [] then ch :: (signOf rest ++ ds)
    else []

def digitsOf (text : List Int) : List Int :=
  text.takeWhile numerals.isNumeral ++ numerals.exponentOf (text.dropWhile numerals.isNumeral)

def numberOf (text : List Int) : List Int :=
  if (text.dropWhile numerals.isNumeral).head? = some 46 then
    text.takeWhile numerals.isNumeral ++
      46 :: numerals.digitsOf ((text.dropWhile numerals.isNumeral).drop 1)
  else numerals.digitsOf text

def beginsNumber (text : List Int) : Bool :=
  text.head?.any numerals.isNumeral ||
    text.head? = some 46 && (text.drop 1).head?.any numerals.isNumeral

variable {numerals}

theorem point_not_isNumeral : numerals.isNumeral 46 = false := by
  cases digit : numerals.isNumeral 46 with
  | false => rfl
  | true =>
    have large := (numerals.other_of_isNumeral 46 digit).1
    omega

theorem head_isNumeral {text : List Int} (ne : text ≠ [])
    (all : ∀ c ∈ text, numerals.isNumeral c = true) (rest : List Int) :
    (text ++ rest).head?.any numerals.isNumeral = true := by
  cases text with
  | nil => exact absurd rfl ne
  | cons c text => exact all c mem_cons_self

section Exponents

theorem exponent_exponentOf (text : List Int) : numerals.Exponent (numerals.exponentOf text) := by
  cases text with
  | nil => exact .inl rfl
  | cons ch rest =>
    unfold exponentOf
    dsimp only
    split_ifs with counted
    · refine .inr ⟨ch, _, _, rfl, counted.1, sign_signOf rest, counted.2, ?_⟩
      exact fun c mem => mem_takeWhile_imp mem
    · exact .inl rfl

theorem exponentOf_isPrefix (text : List Int) : numerals.exponentOf text <+: text := by
  cases text with
  | nil => exact prefix_rfl
  | cons ch rest =>
    unfold exponentOf
    dsimp only
    split_ifs with counted
    · have ds := takeWhile_prefix isDigit (l := rest.drop (signOf rest).length)
      have signed := (prefix_append_right_inj (signOf rest)).mpr ds
      rw [signOf_append_drop] at signed
      exact (prefix_cons_inj ch).mpr signed
    · exact nil_prefix

theorem not_sign_of_isDigit {c : Int} (digit : isDigit c = true) :
    isSpace c = false ∧ c ≠ 43 ∧ c ≠ 45 := by
  apply other_of_digitValue
  unfold digitValue
  rw [if_pos digit]

theorem length_le_exponentOf {exponent : List Int} (isExponent : numerals.Exponent exponent)
    (rest : List Int) : exponent.length ≤ (numerals.exponentOf (exponent ++ rest)).length := by
  obtain rfl | ⟨ch, sign, ds, rfl, isLetter, isSign, ne, all⟩ := isExponent
  · exact Nat.zero_le _
  have signed : signOf (sign ++ (ds ++ rest)) = sign := by
    apply signOf_append isSign
    intro _ c isHead
    cases ds with
    | nil => exact absurd rfl ne
    | cons first ds =>
      cases isHead
      exact not_sign_of_isDigit (all c mem_cons_self)
  have taken : (ds ++ rest).takeWhile isDigit = ds ++ rest.takeWhile isDigit :=
    takeWhile_append_of_pos all
  rw [cons_append, append_assoc, exponentOf, signed, drop_left, taken,
    if_pos ⟨isLetter, append_ne_nil_of_left_ne_nil ne _⟩]
  simp only [length_cons, length_append]
  omega

end Exponents

section Digits

variable {ds exponent : List Int} (all : ∀ c ∈ ds, numerals.isNumeral c = true)

include all

theorem spans_exponent (isExponent : numerals.Exponent exponent) (ne : exponent ≠ [])
    (rest : List Int) :
    (ds ++ (exponent ++ rest)).takeWhile numerals.isNumeral = ds ∧
      (ds ++ (exponent ++ rest)).dropWhile numerals.isNumeral = exponent ++ rest := by
  obtain rfl | ⟨ch, sign, behind, rfl, isLetter, _⟩ := isExponent
  · exact absurd rfl ne
  have notDigit : ¬numerals.isNumeral ch = true := by
    rw [(numerals.not_isNumeral_of_isLetter ch isLetter).1]
    exact Bool.false_ne_true
  rw [takeWhile_append_of_pos all, dropWhile_append_of_pos all, cons_append,
    takeWhile_cons_of_neg notDigit, dropWhile_cons_of_neg notDigit, append_nil]
  exact ⟨rfl, rfl⟩

theorem spans_point (rest : List Int) : (ds ++ 46 :: rest).takeWhile numerals.isNumeral = ds ∧
      (ds ++ 46 :: rest).dropWhile numerals.isNumeral = 46 :: rest := by
  have notDigit : ¬numerals.isNumeral 46 = true := by
    rw [point_not_isNumeral]
    exact Bool.false_ne_true
  rw [takeWhile_append_of_pos all, dropWhile_append_of_pos all,
    takeWhile_cons_of_neg notDigit, dropWhile_cons_of_neg notDigit, append_nil]
  exact ⟨rfl, rfl⟩

theorem length_le_digitsOf (isExponent : numerals.Exponent exponent) (rest : List Int) :
    (ds ++ exponent).length ≤ (numerals.digitsOf (ds ++ (exponent ++ rest))).length := by
  by_cases empty : exponent = []
  · subst empty
    rw [digitsOf, append_nil, takeWhile_append_of_pos all]
    simp only [length_append]
    omega
  obtain ⟨taken, dropped⟩ := spans_exponent all isExponent empty rest
  have longest := length_le_exponentOf isExponent rest
  rw [digitsOf, taken, dropped, length_append, length_append]
  omega

end Digits

theorem digitsOf_isPrefix (text : List Int) : numerals.digitsOf text <+: text := by
  have exponent : numerals.exponentOf (text.dropWhile numerals.isNumeral) <+:
      text.dropWhile numerals.isNumeral := exponentOf_isPrefix _
  have isPrefix := (prefix_append_right_inj (text.takeWhile numerals.isNumeral)).mpr exponent
  rwa [takeWhile_append_dropWhile] at isPrefix

section Numbers

variable {text rest : List Int}

theorem numberOf_of_point (point : text.dropWhile numerals.isNumeral = 46 :: rest) :
    numerals.numberOf text = text.takeWhile numerals.isNumeral ++ 46 :: numerals.digitsOf rest := by
  rw [numberOf, point]
  rfl

theorem numberOf_of_not_point (noPoint : (text.dropWhile numerals.isNumeral).head? ≠ some 46) :
    numerals.numberOf text = numerals.digitsOf text := by
  rw [numberOf, if_neg noPoint]

theorem point_cases (numerals : Numerals) (text : List Int) :
    (∃ rest, text.dropWhile numerals.isNumeral = 46 :: rest) ∨
      (text.dropWhile numerals.isNumeral).head? ≠ some 46 := by
  cases behind : text.dropWhile numerals.isNumeral with
  | nil => exact .inr (by simp)
  | cons c rest =>
    by_cases point : c = 46
    · subst point
      exact .inl ⟨rest, rfl⟩
    · exact .inr (by simpa using point)

theorem numberOf_isPrefix (numerals : Numerals) (text : List Int) :
    numerals.numberOf text <+: text := by
  obtain ⟨rest, point⟩ | noPoint := point_cases numerals text
  · have split : text.takeWhile numerals.isNumeral ++ 46 :: rest = text := by
      rw [← point, takeWhile_append_dropWhile]
    have isPrefix : 46 :: numerals.digitsOf rest <+: 46 :: rest :=
      (prefix_cons_inj 46).mpr (digitsOf_isPrefix rest)
    rw [numberOf_of_point point]
    conv_rhs => rw [← split]
    exact (prefix_append_right_inj _).mpr isPrefix
  · rw [numberOf_of_not_point noPoint]
    exact digitsOf_isPrefix text

theorem length_takeWhile_le_numberOf (numerals : Numerals) (text : List Int) :
    (text.takeWhile numerals.isNumeral).length ≤ (numerals.numberOf text).length := by
  obtain ⟨rest, point⟩ | noPoint := point_cases numerals text
  · rw [numberOf_of_point point, length_append]
    exact Nat.le_add_right _ _
  · rw [numberOf_of_not_point noPoint, digitsOf, length_append]
    exact Nat.le_add_right _ _

theorem length_le_numberOf {word : List Int} (isNum : numerals.Number word) (rest : List Int) :
    word.length ≤ (numerals.numberOf (word ++ rest)).length := by
  obtain ⟨whole, fraction, exponent, allWhole, allFraction, isExponent, _, isWord⟩ := isNum
  obtain rfl | ⟨rfl, rfl⟩ := isWord
  · obtain ⟨taken, dropped⟩ := spans_point allWhole (fraction ++ (exponent ++ rest))
    have longest := length_le_digitsOf allFraction isExponent rest
    rw [append_assoc, cons_append, append_assoc, numberOf_of_point dropped, taken]
    simp only [length_append, length_cons] at longest ⊢
    omega
  by_cases empty : exponent = []
  · have taken := length_takeWhile_le_numberOf numerals (whole ++ rest)
    rw [takeWhile_append_of_pos allWhole, length_append] at taken
    rw [empty, append_nil]
    omega
  obtain ⟨taken, dropped⟩ := spans_exponent allWhole isExponent empty rest
  have noPoint : (exponent ++ rest).head? ≠ some 46 := by
    obtain rfl | ⟨ch, sign, ds, rfl, isLetter, _⟩ := isExponent
    · exact absurd rfl empty
    · have other := (numerals.not_isNumeral_of_isLetter ch isLetter).2
      simpa using other
  rw [← dropped] at noPoint
  rw [append_assoc, numberOf_of_not_point noPoint]
  exact length_le_digitsOf allWhole isExponent rest

theorem beginsNumber_of_number {word : List Int} (isNum : numerals.Number word)
    (rest : List Int) : numerals.beginsNumber (word ++ rest) = true := by
  obtain ⟨whole, fraction, exponent, allWhole, allFraction, _, ne, isWord⟩ := isNum
  unfold beginsNumber
  rw [Bool.or_eq_true]
  by_cases empty : whole = []
  · subst empty
    obtain rfl | ⟨rfl, _⟩ := isWord
    · right
      have behind := head_isNumeral ne allFraction (exponent ++ rest)
      simpa using behind
    · exact absurd rfl ne
  · left
    obtain rfl | ⟨_, rfl⟩ := isWord <;> rw [append_assoc] <;> exact head_isNumeral empty allWhole _

theorem takeWhile_ne_nil (digit : text.head?.any numerals.isNumeral = true) :
    text.takeWhile numerals.isNumeral ≠ [] := by
  cases text with
  | nil => cases digit
  | cons c text =>
    rw [takeWhile_cons_of_pos (by simpa using digit)]
    exact cons_ne_nil _ _

theorem dropWhile_of_point (point : text.head? = some 46) :
    (text.dropWhile numerals.isNumeral).head? = some 46 := by
  cases text with
  | nil => cases point
  | cons c text =>
    cases point
    have noDs : ∀ c ∈ [], numerals.isNumeral c = true := by simp
    exact congrArg head? (spans_point noDs text).2

theorem beginsNumber_cases (begins : numerals.beginsNumber text = true) :
    text.takeWhile numerals.isNumeral ≠ [] ∨
      text.head? = some 46 ∧ (text.drop 1).takeWhile numerals.isNumeral ≠ [] := by
  rw [beginsNumber, Bool.or_eq_true, Bool.and_eq_true, decide_eq_true_eq] at begins
  obtain digit | ⟨point, digit⟩ := begins
  · exact .inl (takeWhile_ne_nil digit)
  · exact .inr ⟨point, takeWhile_ne_nil digit⟩

theorem number_numberOf (begins : numerals.beginsNumber text = true) :
    numerals.Number (numerals.numberOf text) := by
  have allTaken (part : List Int) :
      ∀ c ∈ part.takeWhile numerals.isNumeral, numerals.isNumeral c = true :=
    fun c mem => mem_takeWhile_imp mem
  obtain ⟨rest, point⟩ | noPoint := point_cases numerals text
  · refine ⟨text.takeWhile numerals.isNumeral, rest.takeWhile numerals.isNumeral,
      numerals.exponentOf (rest.dropWhile numerals.isNumeral), allTaken _, allTaken _,
      exponent_exponentOf _, ?_, .inl (numberOf_of_point point)⟩
    intro empty
    obtain ⟨noWhole, noFraction⟩ := append_eq_nil_iff.mp empty
    have isText : text = 46 :: rest := by
      have split := takeWhile_append_dropWhile (p := numerals.isNumeral) (l := text)
      rw [noWhole, point] at split
      exact split.symm
    obtain digit | ⟨_, digit⟩ := beginsNumber_cases begins
    · exact digit noWhole
    · rw [isText] at digit
      exact digit noFraction
  · refine ⟨text.takeWhile numerals.isNumeral, [],
      numerals.exponentOf (text.dropWhile numerals.isNumeral), allTaken _, by simp,
      exponent_exponentOf _, ?_, .inr ⟨rfl, numberOf_of_not_point noPoint⟩⟩
    rw [append_nil]
    obtain digit | ⟨point, _⟩ := beginsNumber_cases begins
    · exact digit
    · exact absurd (dropWhile_of_point point) noPoint

theorem longest_number (numerals : Numerals) (text : List Int) : LongestPrefix numerals.Number text
      (if numerals.beginsNumber text then some (numerals.numberOf text).length else none) := by
  split_ifs with begins
  · obtain ⟨rest, split⟩ := numberOf_isPrefix numerals text
    conv in (text) => rw [← split]
    apply LongestPrefix.of_append (number_numberOf begins)
    intro word behind same isNum
    rw [split] at same
    rw [same]
    exact length_le_numberOf isNum behind
  · apply LongestPrefix.none_of
    rintro word rest rfl isNum
    exact begins (beginsNumber_of_number isNum rest)

end Numbers

theorem head_of_number {word : List Int} (isNum : numerals.Number word) :
    ∃ c rest, word = c :: rest ∧ 46 ≤ c ∧ toLower c ≠ 105 ∧ toLower c ≠ 110 := by
  have begins := beginsNumber_of_number isNum []
  rw [beginsNumber, Bool.or_eq_true, Bool.and_eq_true, decide_eq_true_eq] at begins
  cases word with
  | nil =>
    obtain digit | ⟨point, _⟩ := begins
    · cases digit
    · cases point
  | cons c rest =>
    obtain digit | ⟨point, _⟩ := begins
    · obtain ⟨large, other⟩ := numerals.other_of_isNumeral c digit
      exact ⟨c, rest, rfl, by omega, other⟩
    · cases point
      exact ⟨46, rest, rfl, by decide⟩

end Numerals

end Mlibc.FloatText
