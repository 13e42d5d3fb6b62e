import Mlibc.LongestPrefix

/-! # The text of an integer -/

namespace Mlibc.IntegerText

open List

def isSpace (c : Int) : Bool := c = 32 || (9 ≤ c && c ≤ 13)

def isDigit (c : Int) : Bool := 48 ≤ c && c ≤ 57

def isUpper (c : Int) : Bool := 65 ≤ c && c ≤ 90

def isLower (c : Int) : Bool := 97 ≤ c && c ≤ 122

def isHexDigit (c : Int) : Bool :=
  isDigit c || (65 ≤ c && c ≤ 70) || (97 ≤ c && c ≤ 102)

def digitValue (c : Int) : Option Nat :=
  if isDigit c then some (c - 48).toNat
  else if isUpper c then some (c - 65 + 10).toNat
  else if isLower c then some (c - 97 + 10).toNat
  else none

def isDigitOf (base : Nat) (c : Int) : Bool :=
  match digitValue c with
  | none => false
  | some d => d < base

def Digits (base : Nat) (word : List Int) : Prop :=
  word ≠ [] ∧ ∀ c ∈ word, isDigitOf base c = true

def isPrefixLetter (base : Nat) (c : Int) : Prop :=
  (base = 16 ∧ (c = 120 ∨ c = 88)) ∨ (base = 2 ∧ (c = 98 ∨ c = 66))

def Prefixed (base : Nat) (word : List Int) : Prop :=
  ∃ res ch ds, (base = res ∨ base = 0) ∧ isPrefixLetter res ch ∧
    word = 48 :: ch :: ds ∧ Digits res ds

def Body (base : Nat) (word : List Int) : Prop :=
  Prefixed base word ∨ (base ≠ 0 ∧ Digits base word) ∨
    (base = 0 ∧ word.head? = some 48 ∧ Digits 8 word) ∨
    (base = 0 ∧ word.head? ≠ some 48 ∧ Digits 10 word)

def Sign (word : List Int) : Prop := word = [] ∨ word = [43] ∨ word = [45]

def Led (language : List Int → Prop) (word : List Int) : Prop :=
  ∃ spaces sign body, word = spaces ++ (sign ++ body) ∧ (∀ c ∈ spaces, isSpace c = true) ∧
    Sign sign ∧ language body

def Subject (base : Nat) (word : List Int) : Prop :=
  ∃ spaces sign body, word = spaces ++ (sign ++ body) ∧ (∀ c ∈ spaces, isSpace c = true) ∧
    Sign sign ∧ Body base body

def signOf : List Int → List Int
  | 43 :: _ => [43]
  | 45 :: _ => [45]
  | _ => []

def afterSign (text : List Int) : List Int :=
  (text.dropWhile isSpace).drop (signOf (text.dropWhile isSpace)).length

def lead (text : List Int) : List Int :=
  text.takeWhile isSpace ++ signOf (text.dropWhile isSpace)

theorem signOf_append_drop (text : List Int) :
    signOf text ++ text.drop (signOf text).length = text := by
  unfold signOf
  split <;> rfl

theorem lead_append_afterSign (text : List Int) : lead text ++ afterSign text = text := by
  rw [lead, afterSign, append_assoc, signOf_append_drop, takeWhile_append_dropWhile]

variable {c : Int}

theorem isDigitOf_mono {first second : Nat} (le : first ≤ second)
    (isDigit : isDigitOf first c = true) : isDigitOf second c = true := by
  unfold isDigitOf at isDigit ⊢
  cases digit : digitValue c with
  | none =>
    rw [digit] at isDigit
    cases isDigit
  | some d =>
    rw [digit] at isDigit
    simp only [decide_eq_true_eq] at isDigit ⊢
    omega

variable {base : Nat}

theorem digitValue_of_isDigitOf (isDigit : isDigitOf base c = true) :
    ∃ d < base, digitValue c = some d := by
  unfold isDigitOf at isDigit
  cases digit : digitValue c with
  | none =>
    rw [digit] at isDigit
    cases isDigit
  | some d =>
    rw [digit] at isDigit
    exact ⟨d, of_decide_eq_true isDigit, rfl⟩

theorem other_of_digitValue {d : Nat} (digit : digitValue c = some d) :
    isSpace c = false ∧ c ≠ 43 ∧ c ≠ 45 := by
  unfold digitValue at digit
  have range : (48 ≤ c ∧ c ≤ 57) ∨ (65 ≤ c ∧ c ≤ 90) ∨ 97 ≤ c ∧ c ≤ 122 := by
    split_ifs at digit with number upper lower
    · exact .inl (by simpa [isDigit] using number)
    · exact .inr (.inl (by simpa [isUpper] using upper))
    · exact .inr (.inr (by simpa [isLower] using lower))
  simp only [isSpace, Bool.or_eq_false_iff, decide_eq_false_iff_not, Bool.and_eq_false_iff]
  omega

variable {word : List Int}

theorem head_of_digits (ds : Digits base word) :
    ∃ c rest d, word = c :: rest ∧ digitValue c = some d := by
  obtain ⟨ne, all⟩ := ds
  cases word with
  | nil => exact absurd rfl ne
  | cons c rest =>
    obtain ⟨d, _, digit⟩ := digitValue_of_isDigitOf (all c mem_cons_self)
    exact ⟨c, rest, d, rfl, digit⟩

theorem head_of_body {body : List Int} (isBody : Body base body) :
    ∃ c rest d, body = c :: rest ∧ digitValue c = some d := by
  obtain ⟨_, ch, ds, _, _, rfl, _⟩ | ⟨_, ds⟩ | ⟨_, _, ds⟩ | ⟨_, _, ds⟩ := isBody
  · exact ⟨48, ch :: ds, 0, rfl, rfl⟩
  · exact head_of_digits ds
  · exact head_of_digits ds
  · exact head_of_digits ds

theorem signOf_of_ne (notPlus : c ≠ 43) (notMinus : c ≠ 45)
    (rest : List Int) : signOf (c :: rest) = [] := by
  unfold signOf
  split
  · next isPlus =>
      cases isPlus
      exact absurd rfl notPlus
  · next isMinus =>
      cases isMinus
      exact absurd rfl notMinus
  · rfl

section Append

variable {spaces sign rest : List Int} (allSpaces : ∀ c ∈ spaces, isSpace c = true)
  (isSign : Sign sign)
  (begins : sign = [] → ∀ c ∈ rest.head?, isSpace c = false ∧ c ≠ 43 ∧ c ≠ 45)

include isSign begins

theorem signOf_append : signOf (sign ++ rest) = sign := by
  obtain rfl | rfl | rfl := isSign
  · cases rest with
    | nil => rfl
    | cons c rest =>
      obtain ⟨_, notPlus, notMinus⟩ := begins rfl c rfl
      exact signOf_of_ne notPlus notMinus rest
  · rfl
  · rfl

include allSpaces

theorem dropWhile_isSpace_append : (spaces ++ (sign ++ rest)).dropWhile isSpace = sign ++ rest := by
  rw [dropWhile_append_of_pos allSpaces]
  obtain rfl | rfl | rfl := isSign
  · cases rest with
    | nil => rfl
    | cons c rest =>
      have notSpace := (begins rfl c rfl).1
      exact dropWhile_cons_of_neg (by simp [notSpace])
  · exact dropWhile_cons_of_neg (by decide)
  · exact dropWhile_cons_of_neg (by decide)

theorem afterSign_append : afterSign (spaces ++ (sign ++ rest)) = rest := by
  rw [afterSign, dropWhile_isSpace_append allSpaces isSign begins, signOf_append isSign begins,
    drop_left]

end Append

theorem sign_signOf (text : List Int) : Sign (signOf text) := by
  unfold signOf
  split
  · exact .inr (.inl rfl)
  · exact .inr (.inr rfl)
  · exact .inl rfl

def BeginsPlainly (language : List Int → Prop) : Prop :=
  ∀ word, language word → ∃ c rest, word = c :: rest ∧ isSpace c = false ∧ c ≠ 43 ∧ c ≠ 45

theorem beginsPlainly_body (base : Nat) : BeginsPlainly (Body base) := by
  intro word isBody
  obtain ⟨c, rest, d, rfl, digit⟩ := head_of_body isBody
  exact ⟨c, rest, rfl, other_of_digitValue digit⟩

variable {language : List Int → Prop}

theorem led_iff (plainly : BeginsPlainly language) :
    Led language word ↔ language (afterSign word) := by
  constructor
  · rintro ⟨spaces, sign, body, rfl, allSpaces, isSign, isBody⟩
    obtain ⟨c, rest, rfl, other⟩ := plainly body isBody
    rw [afterSign_append allSpaces isSign]
    · exact isBody
    · rintro _ _ ⟨⟩
      exact other
  · intro isBody
    refine ⟨word.takeWhile isSpace, signOf (word.dropWhile isSpace), afterSign word, ?_, ?_,
      sign_signOf _, isBody⟩
    · rw [afterSign, signOf_append_drop, takeWhile_append_dropWhile]
    · exact fun c mem => mem_takeWhile_imp mem

variable {text : List Int}

theorem not_isSpace_of_mem_head? : ∀ c ∈ (text.dropWhile isSpace).head?, isSpace c = false := by
  intro c isHead
  have stops := head?_dropWhile_not isSpace text
  rw [Option.mem_def.mp isHead] at stops
  simpa using stops

theorem not_sign_of_mem_head? (noSign : signOf text = []) : ∀ c ∈ text.head?, c ≠ 43 ∧ c ≠ 45 := by
  intro c isHead
  cases text with
  | nil => cases isHead
  | cons first rest =>
    cases isHead
    constructor
    · rintro rfl
      cases noSign
    · rintro rfl
      cases noSign

theorem afterSign_lead_append_take (text : List Int) (m : Nat) :
    afterSign (lead text ++ (afterSign text).take m) = (afterSign text).take m := by
  rw [lead, append_assoc, afterSign_append]
  · exact fun c mem => mem_takeWhile_imp mem
  · exact sign_signOf _
  intro noSign c isHead
  have head : c ∈ (text.dropWhile isSpace).head? := by
    rw [afterSign, noSign, head?_take] at isHead
    split_ifs at isHead
    · cases isHead
    · exact isHead
  exact ⟨not_isSpace_of_mem_head? c head, not_sign_of_mem_head? noSign c head⟩

theorem afterSign_take_lead (text : List Int) {m : Nat} (short : m < (lead text).length) :
    afterSign ((lead text).take m) = [] := by
  have signLe : (signOf (text.dropWhile isSpace)).length ≤ 1 := by
    obtain sign | sign | sign := sign_signOf (text.dropWhile isSpace) <;> rw [sign] <;> decide
  have onlySpaces : (lead text).take m = (text.takeWhile isSpace).take m := by
    rw [lead, length_append] at short
    rw [lead, take_append_of_le_length (by omega)]
  have allSpaces : ∀ c ∈ (text.takeWhile isSpace).take m, isSpace c = true :=
    fun c mem => mem_takeWhile_imp (mem_of_mem_take mem)
  rw [onlySpaces, afterSign, dropWhile_eq_nil_iff.mpr allSpaces]
  rfl

variable {length : Option Nat}

theorem longest_led (plainly : BeginsPlainly language)
    (longest : LongestPrefix language (afterSign text) length) :
    LongestPrefix (Led language) text (length.map ((lead text).length + ·)) := by
  conv in (text) => rw [← lead_append_afterSign text]
  apply LongestPrefix.skip _ _ longest
  · intro m short
    rw [led_iff plainly, take_append_of_le_length short.le, afterSign_take_lead text short]
    intro isBody
    obtain ⟨c, rest, empty, _⟩ := plainly [] isBody
    cases empty
  · intro m
    rw [led_iff plainly, afterSign_lead_append_take]

theorem longest_subject (longest : LongestPrefix (Body base) (afterSign text) length) :
    LongestPrefix (Subject base) text (length.map ((lead text).length + ·)) :=
  longest_led (beginsPlainly_body base) longest

def digitsLength (base : Nat) (text : List Int) : Option Nat :=
  if text.takeWhile (isDigitOf base) = [] then none
  else some (text.takeWhile (isDigitOf base)).length

def prefixBase (base : Nat) : List Int → Option Nat
  | 48 :: ch :: c :: _ =>
    if (base = 0 ∨ base = 16) ∧ (ch = 120 ∨ ch = 88) ∧ isDigitOf 16 c = true then some 16
    else if (base = 0 ∨ base = 2) ∧ (ch = 98 ∨ ch = 66) ∧ isDigitOf 2 c = true then some 2
    else none
  | _ => none

def plainBase (base : Nat) (text : List Int) : Nat :=
  if base ≠ 0 then base else if text.head? = some 48 then 8 else 10

def bodyLength (base : Nat) (text : List Int) : Option Nat :=
  match prefixBase base text with
  | some res => (digitsLength res (text.drop 2)).map (2 + ·)
  | none => digitsLength (plainBase base text) text

theorem longest_digits (base : Nat) (text : List Int) :
    LongestPrefix (Digits base) text (digitsLength base text) :=
  LongestPrefix.run (isDigitOf base) text

variable {base res : Nat} {ch : Int}

theorem prefixBase_of_prefix {ds : List Int} (selects : base = res ∨ base = 0)
    (isCh : isPrefixLetter res ch)
    (isDigits : Digits res ds) (rest : List Int) :
    prefixBase base (48 :: ch :: ds ++ rest) = some res := by
  obtain ⟨ne, all⟩ := isDigits
  cases ds with
  | nil => exact absurd rfl ne
  | cons c ds =>
    have digit := all c mem_cons_self
    change prefixBase base (48 :: ch :: c :: (ds ++ rest)) = _
    rw [prefixBase]
    obtain ⟨rfl, hex⟩ | ⟨rfl, bin⟩ := isCh
    · rw [if_pos ⟨selects.symm, hex, digit⟩]
    · rw [if_neg, if_pos ⟨selects.symm, bin, digit⟩]
      omega

theorem prefix_of_prefixBase (counted : prefixBase base text = some res) :
    ∃ ch c rest, text = 48 :: ch :: c :: rest ∧ (base = res ∨ base = 0) ∧
      isPrefixLetter res ch ∧ isDigitOf res c = true := by
  unfold prefixBase at counted
  split at counted
  · next ch c rest =>
      split_ifs at counted with hex bin
      · cases counted
        exact ⟨ch, c, rest, rfl, hex.1.symm, .inl ⟨rfl, hex.2.1⟩, hex.2.2⟩
      · cases counted
        exact ⟨ch, c, rest, rfl, bin.1.symm, .inr ⟨rfl, bin.2.1⟩, bin.2.2⟩
  · cases counted

theorem body_iff : Body base word ↔ Prefixed base word ∨ Digits (plainBase base word) word := by
  unfold Body plainBase
  split_ifs with nz zero
  · simp [nz]
  · rw [not_not] at nz
    simp [nz, zero]
  · rw [not_not] at nz
    simp [nz, zero]

theorem digits_take_iff {base m : Nat} : Digits (plainBase base (text.take m)) (text.take m) ↔
      Digits (plainBase base text) (text.take m) := by
  cases m with
  | zero => exact ⟨fun ds => absurd rfl ds.1, fun ds => absurd rfl ds.1⟩
  | succ m => rw [plainBase, plainBase, head?_take, if_neg (Nat.succ_ne_zero m)]

theorem length_le_one_of_digits {base res m : Nat} {rest : List Int}
    (selects : base = res ∨ base = 0) (isCh : isPrefixLetter res ch)
    (ds : Digits (plainBase base (48 :: ch :: rest)) ((48 :: ch :: rest).take m)) : m ≤ 1 := by
  by_contra long
  obtain ⟨k, rfl⟩ : ∃ k, m = k + 2 := Nat.exists_eq_add_of_le' (by omega)
  have digit := ds.2 ch (by simp)
  have notDigit : isDigitOf (plainBase base (48 :: ch :: rest)) ch = false := by
    obtain ⟨rfl, rfl | rfl⟩ | ⟨rfl, rfl | rfl⟩ := isCh <;> obtain rfl | rfl := selects <;> rfl
  rw [notDigit] at digit
  cases digit

theorem prefixLetter_unique {first second : Nat} (isFirst : isPrefixLetter first ch)
    (isSecond : isPrefixLetter second ch) :
    first = second := by
  unfold isPrefixLetter at isFirst isSecond
  omega

theorem longest_body_prefix {rest : List Int} (selects : base = res ∨ base = 0)
    (isCh : isPrefixLetter res ch)
    (digit : isDigitOf res c = true) :
    LongestPrefix (Body base) (48 :: ch :: c :: rest)
      ((digitsLength res (c :: rest)).map (2 + ·)) := by
  have longest := longest_digits res (c :: rest)
  have ne : (c :: rest).takeWhile (isDigitOf res) ≠ [] := by
    rw [takeWhile_cons_of_pos digit]
    exact cons_ne_nil _ _
  rw [digitsLength, if_neg ne] at longest ⊢
  obtain ⟨le, ds, bound⟩ := longest
  have cut (m : Nat) : (48 :: ch :: c :: rest).take (2 + m) = 48 :: ch :: (c :: rest).take m := by
    rw [Nat.add_comm]
    rfl
  refine ⟨?_, ?_, ?_⟩
  · simp only [length_cons] at le ⊢
    omega
  · rw [cut]
    exact .inl ⟨res, ch, _, selects, isCh, rfl, ds⟩
  intro m mLe acc
  rw [body_iff, digits_take_iff] at acc
  obtain ⟨other, otherLetter, ds, _, isOther, word, isDigits⟩ | plain := acc
  · by_cases long : 2 ≤ m
    · obtain ⟨k, rfl⟩ := Nat.exists_eq_add_of_le long
      rw [cut] at word
      cases word
      rw [prefixLetter_unique isOther isCh] at isDigits
      simp only [length_cons] at mLe
      exact Nat.add_le_add_left (bound k (by simp only [length_cons]; omega) isDigits) 2
    · have short := congrArg length word
      simp only [length_take, length_cons] at short
      omega
  · have short := length_le_one_of_digits selects isCh plain
    exact short.trans (Nat.le_trans (by decide) (Nat.le_add_right 2 _))

theorem longest_body (base : Nat) (text : List Int) :
    LongestPrefix (Body base) text (bodyLength base text) := by
  unfold bodyLength
  cases counted : prefixBase base text with
  | some res =>
    obtain ⟨ch, c, rest, rfl, selects, isCh, digit⟩ := prefix_of_prefixBase counted
    exact longest_body_prefix selects isCh digit
  | none =>
    refine (longest_digits (plainBase base text) text).congr ?_
    intro m _
    rw [body_iff, digits_take_iff]
    constructor
    · exact .inr
    rintro (⟨res, ch, ds, selects, isCh, cut, isDigits⟩ | plain)
    · have isCounted := prefixBase_of_prefix selects isCh isDigits (text.drop m)
      rw [← cut, take_append_drop, counted] at isCounted
      cases isCounted
    · exact plain

end Mlibc.IntegerText
