import Mlibc.Scanf

/-! # The input items of integer conversions -/

namespace Mlibc.Scanf

open IntegerText StringToInteger List

def Integer (base : Nat) (word : List Int) : Prop :=
  ∃ sign body, word = sign ++ body ∧ Sign sign ∧ Body base body

def Begins (base : Nat) (word : List Int) : Prop := ∃ more, Integer base (word ++ more)

def Leads (base : Nat) (front : List Int) (res : Nat) (ds : List Int) : Prop :=
  (front = [] ∧ res = plainBase base ds) ∨
    ∃ ch, front = [48, ch] ∧ isPrefixLetter res ch ∧ (base = res ∨ base = 0)

def Denotes (base : Nat) (word : List Int) (value : Int) : Prop :=
  ∃ sign front ds res, word = sign ++ (front ++ ds) ∧ Sign sign ∧
    Digits res ds ∧ Leads base front res ds ∧
    value = signedNumber (decide (sign = [45])) (numeral res (digitValues ds))

def selectedBase (base : Nat) (ch : Int) : Option Nat :=
  if (base = 16 ∨ base = 0) ∧ (ch = 120 ∨ ch = 88) then some 16
  else if (base = 2 ∨ base = 0) ∧ (ch = 98 ∨ ch = 66) then some 2
  else none

/-- The prefix of a base, the base, and the digits behind the prefix. -/
def bodyParts (base : Nat) (text : List Int) : List Int × Nat × List Int :=
  match text with
  | 48 :: ch :: rest =>
    match selectedBase base ch with
    | some res => ([48, ch], res, rest.takeWhile (isDigitOf res))
    | none =>
      ([], plainBase base text, text.takeWhile (isDigitOf (plainBase base text)))
  | _ => ([], plainBase base text, text.takeWhile (isDigitOf (plainBase base text)))

def bodyItem (base : Nat) (text : List Int) : List Int :=
  (bodyParts base text).1 ++ (bodyParts base text).2.2

def item (base : Nat) (text : List Int) : List Int :=
  signOf text ++ bodyItem base (text.drop (signOf text).length)

theorem selectedBase_eq_some_iff {base res : Nat} {ch : Int} : selectedBase base ch = some res ↔
      (base = res ∨ base = 0) ∧ isPrefixLetter res ch := by
  unfold selectedBase isPrefixLetter
  split_ifs with hex bin
  · simp only [Option.some.injEq]
    omega
  · simp only [Option.some.injEq]
    omega
  constructor
  · intro absurdity
    cases absurdity
  · omega

variable {base : Nat} {word text : List Int}

theorem bodyParts_prefixed {res : Nat} {ch : Int} (selects : base = res ∨ base = 0)
    (isCh : isPrefixLetter res ch) (rest : List Int) :
    bodyParts base (48 :: ch :: rest) = ([48, ch], res, rest.takeWhile (isDigitOf res)) := by
  simp only [bodyParts, selectedBase_eq_some_iff.mpr ⟨selects, isCh⟩]

def NoPrefix (base : Nat) (text : List Int) : Prop :=
  ∀ ch rest res, text = 48 :: ch :: rest → isPrefixLetter res ch → ¬(base = res ∨ base = 0)

theorem bodyParts_plain (noPrefix : NoPrefix base text) : bodyParts base text =
      ([], plainBase base text, text.takeWhile (isDigitOf (plainBase base text))) := by
  unfold bodyParts
  split
  · next ch rest =>
      cases selected : selectedBase base ch with
      | some res =>
        obtain ⟨selects, isCh⟩ := selectedBase_eq_some_iff.mp selected
        exact absurd selects (noPrefix ch rest res rfl isCh)
      | none => rfl
  · rfl

theorem bodyParts_cases (base : Nat) (text : List Int) : (∃ ch rest res, text = 48 :: ch :: rest ∧
      (base = res ∨ base = 0) ∧ isPrefixLetter res ch ∧
      bodyParts base text = ([48, ch], res, rest.takeWhile (isDigitOf res))) ∨
    (NoPrefix base text ∧ bodyParts base text =
        ([], plainBase base text, text.takeWhile (isDigitOf (plainBase base text)))) := by
  by_cases noPrefix : NoPrefix base text
  · exact .inr ⟨noPrefix, bodyParts_plain noPrefix⟩
  left
  unfold NoPrefix at noPrefix
  push Not at noPrefix
  obtain ⟨ch, rest, res, rfl, isCh, selects⟩ := noPrefix
  exact ⟨ch, rest, res, rfl, selects, isCh, bodyParts_prefixed selects isCh rest⟩

theorem NoPrefix.of_prefix (noPrefix : NoPrefix base text)
    (isPrefix : word <+: text) : NoPrefix base word := by
  intro ch rest res isWord
  obtain ⟨more, isText⟩ := isPrefix
  rw [isWord] at isText
  exact noPrefix ch (rest ++ more) res isText.symm

theorem bodyItem_isPrefix (base : Nat) (text : List Int) : bodyItem base text <+: text := by
  unfold bodyItem
  obtain ⟨ch, rest, res, rfl, _, _, parts⟩ | ⟨_, parts⟩ := bodyParts_cases base text
  · rw [parts]
    exact (prefix_append_right_inj [48, ch]).mpr ( takeWhile_prefix _)
  · rw [parts]
    exact takeWhile_prefix _

theorem isDigitOf_zero (pos : 0 < base) : isDigitOf base 48 = true := by
  exact decide_eq_true pos

theorem body_zero (base : Nat) : Body base [48] := by
  have zero {other : Nat} (pos : 0 < other) : Digits other [48] := by
    refine ⟨cons_ne_nil _ _, ?_⟩
    intro c mem
    rw [mem_singleton.mp mem]
    exact isDigitOf_zero pos
  rw [body_iff]
  right
  unfold plainBase
  split_ifs with nz octal
  · exact zero (Nat.pos_of_ne_zero nz)
  · exact zero (by decide)
  · exact absurd rfl octal

theorem digits_of_append {more : List Int} (ds : Digits base (word ++ more))
    (ne : word ≠ []) : Digits base word :=
  ⟨ne, fun c mem => ds.2 c (mem_append_left more mem)⟩

theorem plainBase_append (base : Nat) (ne : word ≠ []) (more : List Int) :
    plainBase base (word ++ more) = plainBase base word := by
  cases word with
  | nil => exact absurd rfl ne
  | cons c word => rfl

theorem begins_body_iff : (∃ more, Body base (word ++ more)) ↔ word = [] ∨ Body base word ∨
        ∃ res ch, (base = res ∨ base = 0) ∧ isPrefixLetter res ch ∧ word = [48, ch] := by
  constructor
  · rintro ⟨more, isBody⟩
    rw [body_iff] at isBody
    obtain ⟨res, ch, ds, selects, isCh, isWord, isDigits⟩ | plain := isBody
    · match word, isWord with
      | [], _ => exact .inl rfl
      | [zero], isWord =>
        cases isWord
        exact .inr (.inl (body_zero base))
      | [zero, second], isWord =>
        cases isWord
        exact .inr (.inr ⟨res, ch, selects, isCh, rfl⟩)
      | zero :: second :: digit :: others, isWord =>
        cases isWord
        right
        left
        left
        exact ⟨res, ch, digit :: others, selects, isCh, rfl,
          digits_of_append isDigits (cons_ne_nil _ _)⟩
    · by_cases empty : word = []
      · exact .inl empty
      right
      left
      rw [body_iff]
      right
      rw [plainBase_append base empty] at plain
      exact digits_of_append plain empty
  · rintro (rfl | isBody | ⟨res, ch, selects, isCh, rfl⟩)
    · exact ⟨[48], body_zero base⟩
    · exact ⟨[], by rwa [append_nil]⟩
    refine ⟨[48], ?_⟩
    left
    refine ⟨res, ch, [48], selects, isCh, rfl, cons_ne_nil _ _, ?_⟩
    intro c mem
    rw [mem_singleton.mp mem]
    obtain ⟨rfl, _⟩ | ⟨rfl, _⟩ := isCh <;> decide

theorem le_of_digits_take {m : Nat} (mLe : m ≤ text.length) (ds : Digits base (text.take m)) :
    m ≤ (text.takeWhile (isDigitOf base)).length := by
  have longest := longest_digits base text
  unfold digitsLength at longest
  split_ifs at longest with empty
  · exact absurd ds (longest m mLe)
  · exact longest.2.2 m mLe ds

theorem begins_bodyItem (base : Nat) (text : List Int) :
    ∃ more, Body base (bodyItem base text ++ more) := by
  rw [begins_body_iff]
  unfold bodyItem
  obtain ⟨ch, rest, res, rfl, selects, isCh, parts⟩ | ⟨_, parts⟩ :=
    bodyParts_cases base text
  · rw [parts]
    right
    by_cases empty : rest.takeWhile (isDigitOf res) = []
    · right
      exact ⟨res, ch, selects, isCh, by rw [empty]; rfl⟩
    left
    left
    exact ⟨res, ch, _, selects, isCh, rfl, empty, fun c => mem_takeWhile_imp⟩
  rw [parts, nil_append]
  by_cases empty : text.takeWhile (isDigitOf (plainBase base text)) = []
  · exact .inl empty
  right
  left
  rw [body_iff]
  right
  have sameBase := plainBase_append base empty (text.dropWhile (isDigitOf (plainBase base text)))
  rw [takeWhile_append_dropWhile] at sameBase
  refine ⟨empty, ?_⟩
  rw [← sameBase]
  exact fun c => mem_takeWhile_imp

theorem le_of_begins_take {m : Nat} (mLe : m ≤ text.length)
    (begins : ∃ more, Body base (text.take m ++ more)) : m ≤ (bodyItem base text).length := by
  rw [begins_body_iff, body_iff, digits_take_iff] at begins
  unfold bodyItem
  obtain ⟨ch, rest, res, rfl, selects, isCh, parts⟩ | ⟨noPrefix, parts⟩ :=
    bodyParts_cases base text
  · rw [parts]
    match m with
    | 0 => exact Nat.zero_le _
    | 1 =>
      rw [length_append]
      exact (by decide : 1 ≤ 2).trans (Nat.le_add_right 2 _)
    | m + 2 =>
      have enough : m ≤ (rest.takeWhile (isDigitOf res)).length := by
        obtain empty | (isPrefixed | plain) | ⟨_, _, _, _, isWord⟩ := begins
        · cases empty
        · obtain ⟨other, _, ds, _, isOther, isWord, isDigits⟩ := isPrefixed
          cases isWord
          rw [prefixLetter_unique isOther isCh] at isDigits
          simp only [length_cons] at mLe
          exact le_of_digits_take (by omega) isDigits
        · have short := length_le_one_of_digits selects isCh plain
          omega
        · have short := congrArg length isWord
          simp only [length_take, length_cons, length_nil] at short mLe
          omega
      simp only [length_append, length_cons]
      omega
  · rw [parts]
    have notPrefix {res : Nat} {ch : Int} {ds : List Int}
        (selects : base = res ∨ base = 0) (isCh : isPrefixLetter res ch) :
        text.take m ≠ 48 :: ch :: ds := by
      intro isWord
      exact noPrefix.of_prefix ( take_prefix m text) ch ds res isWord isCh selects
    obtain empty | (isPrefixed | plain) | ⟨_, _, selects, isCh, isWord⟩ := begins
    · have short := congrArg length empty
      rw [length_take, Nat.min_eq_left mLe] at short
      exact short ▸ Nat.zero_le _
    · obtain ⟨_, _, _, selects, isCh, isWord, _⟩ := isPrefixed
      exact absurd isWord (notPrefix selects isCh)
    · exact le_of_digits_take mLe plain
    · exact absurd isWord (notPrefix selects isCh)

theorem signOf_append_of_ne (ne : word ≠ []) (more : List Int) :
    signOf (word ++ more) = signOf word := by
  cases word with
  | nil => exact absurd rfl ne
  | cons c word =>
    unfold signOf
    split <;> split <;> simp_all

theorem signOf_sign_append {sign body : List Int} (isSign : Sign sign) (isBody : Body base body) :
    signOf (sign ++ body) = sign := by
  apply signOf_append isSign
  intro _ c isHead
  obtain ⟨first, rest, d, rfl, digit⟩ := head_of_body isBody
  cases isHead
  exact other_of_digitValue digit

theorem begins_iff :
    Begins base word ↔ ∃ more, Body base (word.drop (signOf word).length ++ more) := by
  constructor
  · rintro ⟨more, sign, body, isWord, isSign, isBody⟩
    by_cases empty : word = []
    · subst empty
      exact ⟨[48], body_zero base⟩
    refine ⟨more, ?_⟩
    have sameSign := signOf_sign_append isSign isBody
    rw [← isWord, signOf_append_of_ne empty] at sameSign
    rw [← signOf_append_drop word, append_assoc, sameSign] at isWord
    rw [sameSign, append_cancel_left isWord]
    exact isBody
  · rintro ⟨more, isBody⟩
    refine ⟨more, signOf word, _, ?_, sign_signOf word, isBody⟩
    rw [← append_assoc, signOf_append_drop]

theorem item_isPrefix (base : Nat) (text : List Int) : item base text <+: text := by
  have isPrefix := bodyItem_isPrefix base (text.drop (signOf text).length)
  conv_rhs => rw [← signOf_append_drop text]
  exact (prefix_append_right_inj _).mpr isPrefix

theorem signOf_item (base : Nat) (text : List Int) : signOf (item base text) = signOf text := by
  by_cases empty : item base text = []
  · have noSign := (append_eq_nil_iff.mp empty).1
    rw [empty, noSign]
    rfl
  obtain ⟨rest, isText⟩ := item_isPrefix base text
  have sameSign := signOf_append_of_ne empty rest
  rw [isText] at sameSign
  exact sameSign.symm

theorem longest_item (base : Nat) (text : List Int) :
    LongestPrefix (Begins base) text (some (item base text).length) := by
  have isItem := prefix_iff_eq_take.mp (item_isPrefix base text)
  refine ⟨(item_isPrefix base text).length_le, ?_, ?_⟩
  · rw [← isItem, begins_iff, signOf_item, item, drop_left]
    exact begins_bodyItem base _
  intro m mLe begins
  rw [begins_iff] at begins
  by_cases empty : text.take m = []
  · have short := congrArg length empty
    rw [length_take, Nat.min_eq_left mLe] at short
    exact short ▸ Nat.zero_le _
  have sameSign := signOf_append_of_ne empty (text.drop m)
  rw [take_append_drop] at sameSign
  rw [← sameSign, drop_take] at begins
  have bound := le_of_begins_take (by rw [length_drop]; omega) begins
  rw [item, length_append]
  omega

theorem plainBase_takeWhile (base : Nat) (text : List Int) :
    plainBase base (text.takeWhile (isDigitOf (plainBase base text))) = plainBase base text := by
  cases text with
  | nil => rfl
  | cons c text =>
    by_cases digit : isDigitOf (plainBase base (c :: text)) c = true
    · rw [takeWhile_cons_of_pos digit]
      rfl
    rw [takeWhile_cons_of_neg digit]
    unfold plainBase at digit ⊢
    split_ifs at digit ⊢ with nz absurdity octal octal
    · rfl
    · cases absurdity
    · cases absurdity
    · cases octal
      exact absurd rfl digit
    · rfl

theorem bodyParts_bodyItem (base : Nat) (text : List Int) :
    bodyParts base (bodyItem base text) = bodyParts base text := by
  have isPrefix := bodyItem_isPrefix base text
  unfold bodyItem at isPrefix ⊢
  obtain ⟨ch, rest, res, rfl, selects, isCh, parts⟩ | ⟨noPrefix, parts⟩ :=
    bodyParts_cases base text
  · rw [parts]
    change bodyParts base (48 :: ch :: _) = _
    rw [bodyParts_prefixed selects isCh]
    change (_, _, takeWhile _ (takeWhile _ rest)) = _
    rw [takeWhile_idem]
  · rw [parts] at isPrefix ⊢
    rw [nil_append] at isPrefix ⊢
    rw [bodyParts_plain (noPrefix.of_prefix isPrefix), plainBase_takeWhile, takeWhile_idem]

theorem bodyParts_of_leads {front ds : List Int} {res : Nat}
    (isDigits : Digits res ds) (leads : Leads base front res ds) :
    Body base (front ++ ds) ∧ bodyParts base (front ++ ds) = (front, res, ds) := by
  have allDigits := takeWhile_eq_self_iff.mpr isDigits.2
  rw [body_iff]
  obtain ⟨rfl, rfl⟩ | ⟨ch, rfl, isCh, selects⟩ := leads
  · refine ⟨.inr isDigits, ?_⟩
    rw [nil_append, bodyParts_plain, allDigits]
    intro ch rest res isWord isCh selects
    rw [isWord, ← take_length (l := 48 :: ch :: rest)] at isDigits
    have short := length_le_one_of_digits selects isCh isDigits
    simp only [length_cons] at short
    omega
  · refine ⟨.inl ⟨res, ch, ds, selects, isCh, rfl, isDigits⟩, ?_⟩
    change bodyParts base (48 :: ch :: ds) = _
    rw [bodyParts_prefixed selects isCh, allDigits]

theorem integer_iff_denotes : Integer base word ↔ ∃ value, Denotes base word value := by
  constructor
  · rintro ⟨sign, body, rfl, isSign, isBody⟩
    rw [body_iff] at isBody
    obtain ⟨res, ch, ds, selects, isCh, rfl, isDigits⟩ | isDigits := isBody
    · exact ⟨_, sign, [48, ch], ds, res, rfl, isSign, isDigits, .inr ⟨ch, rfl, isCh, selects⟩, rfl⟩
    · exact ⟨_, sign, [], body, _, rfl, isSign, isDigits, .inl ⟨rfl, rfl⟩, rfl⟩
  · rintro ⟨_, sign, front, ds, res, rfl, isSign, isDigits, leads, _⟩
    exact ⟨sign, front ++ ds, rfl, isSign, (bodyParts_of_leads isDigits leads).1⟩

theorem leads_bodyParts (base : Nat) (text : List Int) :
    Leads base (bodyParts base text).1 (bodyParts base text).2.1 (bodyParts base text).2.2 ∧
      ∀ c ∈ (bodyParts base text).2.2, isDigitOf (bodyParts base text).2.1 c = true := by
  obtain ⟨ch, rest, res, rfl, selects, isCh, parts⟩ | ⟨_, parts⟩ :=
    bodyParts_cases base text
  · rw [parts]
    exact ⟨.inr ⟨ch, rfl, isCh, selects⟩, fun c => mem_takeWhile_imp⟩
  · rw [parts]
    exact ⟨.inl ⟨rfl, (plainBase_takeWhile base text).symm⟩, fun c => mem_takeWhile_imp⟩

theorem denotes_item_iff {value : Int} : Denotes base (item base text) value ↔
      (bodyParts base (text.drop (signOf text).length)).2.2 ≠ [] ∧
        value = signedNumber (decide (signOf text = [45]))
          (numeral (bodyParts base (text.drop (signOf text).length)).2.1
            (digitValues (bodyParts base (text.drop (signOf text).length)).2.2)) := by
  constructor
  · rintro ⟨sign, front, ds, res, isItem, isSign, isDigits, leads, rfl⟩
    have partsOf := bodyParts_of_leads isDigits leads
    have sameSign := signOf_sign_append isSign partsOf.1
    rw [← isItem, signOf_item] at sameSign
    have sameBody : bodyItem base (text.drop (signOf text).length) = front ++ ds := by
      rw [item, sameSign] at isItem
      rw [sameSign]
      exact append_cancel_left isItem
    rw [← bodyParts_bodyItem, sameBody, partsOf.2, sameSign]
    exact ⟨isDigits.1, rfl⟩
  · rintro ⟨ne, rfl⟩
    obtain ⟨leads, allDigits⟩ := leads_bodyParts base (text.drop (signOf text).length)
    exact ⟨signOf text, _, _, _, rfl, sign_signOf text, ⟨ne, allDigits⟩, leads, rfl⟩

end Mlibc.Scanf
