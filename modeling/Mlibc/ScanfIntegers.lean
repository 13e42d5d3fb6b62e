import Mathlib.Data.Int.ModEq
import Mlibc.ScanfItems

/-! # Conversions to integers -/

namespace Mlibc.Scanf

open IntegerText StringToInteger List

def cutTo (width : Nat) (text : List Int) : List Int :=
  if width = 0 then text else text.take width

def limited (limit : Option Nat) (text : List Int) : List Int :=
  match limit with
  | none => text
  | some n => text.take n

def itemOutcome (wordBits : Nat) (directive : Directive) (base width : Nat) (text : List Int) :
    Outcome :=
  let cut := cutTo width text
  let parts := bodyParts base (cut.drop (signOf cut).length)
  if parts.2.2 = [] then
    if lookAhead text = 0 then .atEnd text else .noMatch (text.drop (item base cut).length)
  else
    .matched (text.drop (item base cut).length)
      (storeInt wordBits directive (decide (signOf cut = [45]))
        (numeral parts.2.1 (digitValues parts.2.2) % 2 ^ 64))

variable {wordBits : Nat} {directive : Directive} {base width res n : Nat}
  {text front ds : List Int}

theorem readDigits_eq (limit : Option Nat) (ds : List Nat) (text : List Int) :
    readDigits base limit (numeral base ds % 2 ^ 64) text =
      (numeral base (ds ++ digitValues ((limited limit text).takeWhile (isDigitOf base))) % 2 ^ 64,
        text.drop ((limited limit text).takeWhile (isDigitOf base)).length) := by
  induction text generalizing limit ds with
  | nil =>
    have nothing : limited limit [] = [] := by
      cases limit with
      | none => rfl
      | some n => exact take_nil
    rw [nothing, takeWhile_nil, digitValues, filterMap_nil, append_nil]
    rfl
  | cons c text ih =>
    rw [readDigits]
    by_cases reached : limit = some 0
    · subst reached
      rw [if_pos rfl]
      change _ = (numeral base (ds ++ []) % 2 ^ 64, c :: text)
      rw [append_nil]
    have goesOn : limited limit (c :: text) = c :: limited (limit.map (· - 1)) text := by
      cases limit with
      | none => rfl
      | some n =>
        cases n with
        | zero => exact absurd rfl reached
        | succ n => rfl
    rw [if_neg reached, goesOn]
    by_cases isDigit : isDigitOf base c = true
    · obtain ⟨d, small, digit⟩ := digitValue_of_isDigitOf isDigit
      have total : (numeral base ds % 2 ^ 64 * base + d) % 2 ^ 64 =
          numeral base (ds ++ [d]) % 2 ^ 64 := by
        rw [numeral_append, Nat.add_mod, Nat.mod_mul_mod, ← Nat.add_mod]
      rw [digit]
      simp only [if_pos small]
      rw [total, ih, takeWhile_cons_of_pos isDigit, digitValues, digitValues,
        filterMap_cons_some digit, append_assoc]
      rfl
    rw [takeWhile_cons_of_neg isDigit, digitValues, filterMap_nil, append_nil]
    unfold isDigitOf at isDigit
    cases digit : digitValue c with
    | none => rfl
    | some d =>
      rw [digit] at isDigit
      simp only [decide_eq_true_eq] at isDigit
      simp only [if_neg isDigit]
      rfl

theorem readDigits_zero (limit : Option Nat) (text : List Int) : readDigits base limit 0 text =
      (numeral base (digitValues ((limited limit text).takeWhile (isDigitOf base))) % 2 ^ 64,
        text.drop ((limited limit text).takeWhile (isDigitOf base)).length) :=
  readDigits_eq limit [] text

theorem numeral_zero_cons (ds : List Int) :
    numeral base (digitValues (48 :: ds)) = numeral base (digitValues ds) := by
  change foldl _ (0 * base + 0) (digitValues ds) = _
  rw [zero_mul]
  rfl

theorem readSign_eq (text : List Int) :
    readSign text = (decide (signOf text = [45]), text.drop (signOf text).length) := by
  cases text with
  | nil => rfl
  | cons c text =>
    by_cases minus : c = 45
    · subst minus
      rfl
    by_cases plus : c = 43
    · subst plus
      rfl
    rw [signOf_of_ne plus minus]
    change (if c = 45 then _ else if c = 43 then _ else _) = _
    rw [if_neg minus, if_neg plus]
    rfl

theorem tolower_eq_x {c : Int} : tolower c = 120 ↔ c = 120 ∨ c = 88 := by
  simp only [tolower, isUpper, Bool.and_eq_true, decide_eq_true_eq]
  split_ifs <;> omega

theorem tolower_eq_b {c : Int} : tolower c = 98 ↔ c = 98 ∨ c = 66 := by
  simp only [tolower, isUpper, Bool.and_eq_true, decide_eq_true_eq]
  split_ifs <;> omega

theorem eq_cons_of_lookAhead {c : Int} (ahead : lookAhead text = c) (nz : c ≠ 0) :
    text = c :: text.tail := by
  cases text with
  | nil => exact absurd ahead.symm nz
  | cons first text =>
    cases ahead
    rfl

theorem scanDigits_eq (isNegative required : Bool) (text : List Int) :
    scanDigits wordBits directive isNegative base required text =
      if required = true ∧ text.takeWhile (isDigitOf base) = [] then .noMatch text
      else
        .matched (text.drop (text.takeWhile (isDigitOf base)).length)
          (storeInt wordBits directive isNegative
            (numeral base (digitValues (text.takeWhile (isDigitOf base))) % 2 ^ 64)) := by
  have same : (text.drop (text.takeWhile (isDigitOf base)).length).length = text.length ↔
      text.takeWhile (isDigitOf base) = [] := by
    have le := ( takeWhile_prefix (isDigitOf base) (l := text)).length_le
    rw [← length_eq_zero_iff, length_drop]
    omega
  simp only [scanDigits, readDigits_zero, limited, same]
  split_ifs with nothing
  · rw [nothing.2]
    rfl
  · rfl

theorem itemOutcome_of_parts (more : lookAhead text ≠ 0)
    (parts : bodyParts base ((cutTo width text).drop (signOf (cutTo width text)).length) =
      (front, res, ds)) :
    itemOutcome wordBits directive base width text =
      if ds = [] then
        .noMatch (text.drop ((signOf (cutTo width text)).length + front.length))
      else
        .matched (text.drop ((signOf (cutTo width text)).length + (front.length + ds.length)))
          (storeInt wordBits directive (decide (signOf (cutTo width text) = [45]))
            (numeral res (digitValues ds) % 2 ^ 64)) := by
  simp only [itemOutcome, item, bodyItem, parts, length_append]
  split_ifs with empty
  · rw [empty]
    rfl
  · rfl

theorem lookAhead_cutTo (width : Nat) (text : List Int) :
    lookAhead (cutTo width text) = lookAhead text := by
  unfold cutTo
  split_ifs with zero
  · rfl
  cases text with
  | nil => rw [take_nil]
  | cons c text =>
    cases width with
    | zero => exact absurd rfl zero
    | succ width => rfl

theorem noPrefix_of_ne (notZero : lookAhead text ≠ 48) : NoPrefix base text := by
  intro ch rest res isText
  rw [isText] at notZero
  exact absurd rfl notZero

theorem noPrefix_of_letter {rest : List Int} (other : ∀ res, isPrefixLetter res (lookAhead rest) →
      ¬(base = res ∨ base = 0)) : NoPrefix base (48 :: rest) := by
  intro ch more res isText
  cases isText
  exact other res

theorem item_of_atEnd (base : Nat) (atEnd : lookAhead text = 0) :
    signOf text = [] ∧ bodyParts base text = ([], plainBase base text, []) := by
  rw [bodyParts_plain (noPrefix_of_ne (by omega))]
  cases text with
  | nil => exact ⟨rfl, rfl⟩
  | cons c text =>
    have isZero : c = 0 := atEnd
    subst isZero
    rw [takeWhile_cons_of_neg]
    · exact ⟨rfl, rfl⟩
    · exact Bool.false_ne_true

theorem itemOutcome_atEnd (atEnd : lookAhead text = 0) :
    itemOutcome wordBits directive base width text = .atEnd text := by
  obtain ⟨noSign, parts⟩ := item_of_atEnd base ((lookAhead_cutTo width text).trans atEnd)
  simp only [itemOutcome, noSign, length_nil, drop_zero, parts, if_true]
  rw [if_pos atEnd]

theorem scanDigits_required (more : lookAhead text ≠ 0)
    (parts : bodyParts base (text.drop (signOf text).length) =
      (front, res, (text.drop ((signOf text).length + front.length)).takeWhile (isDigitOf res))) :
    scanDigits wordBits directive (decide (signOf text = [45])) res true
        (text.drop ((signOf text).length + front.length)) =
      itemOutcome wordBits directive base 0 text := by
  rw [scanDigits_eq, itemOutcome_of_parts more parts, drop_drop, add_assoc]
  simp only [true_and]
  rfl

theorem scanDigits_zero (more : lookAhead text ≠ 0)
    (parts : bodyParts base (text.drop (signOf text).length) =
      ([], res, 48 :: (text.drop ((signOf text).length + 1)).takeWhile (isDigitOf res))) :
    scanDigits wordBits directive (decide (signOf text = [45])) res false
        (text.drop ((signOf text).length + 1)) =
      itemOutcome wordBits directive base 0 text := by
  rw [scanDigits_eq, itemOutcome_of_parts more parts, drop_drop, numeral_zero_cons, length_nil,
    zero_add, add_assoc, add_comm 1]
  rfl

theorem scanDigits_plain (more : lookAhead text ≠ 0) (notHexadecimal : base ≠ 16)
    (notBinary : base ≠ 2) (nz : base ≠ 0) :
    scanDigits wordBits directive (decide (signOf text = [45])) base true
        (text.drop (signOf text).length) =
      itemOutcome wordBits directive base 0 text := by
  have noPrefix : NoPrefix base (text.drop (signOf text).length) := by
    intro ch rest res _ isCh selects
    unfold isPrefixLetter at isCh
    omega
  have parts := bodyParts_plain noPrefix
  rw [plainBase, if_pos nz] at parts
  exact scanDigits_required more parts

theorem scanOctal_eq (text : List Int) :
    scanOctal wordBits directive text = itemOutcome wordBits directive 8 0 text := by
  unfold scanOctal
  split_ifs with atEnd
  · exact (itemOutcome_atEnd atEnd).symm
  · rw [readSign_eq]
    exact scanDigits_plain atEnd (by decide) (by decide) (by decide)

theorem drop_of_lookAhead {c : Int} (ahead : lookAhead (text.drop n) = c) (nz : c ≠ 0) :
    text.drop n = c :: text.drop (n + 1) := by
  rw [← tail_drop]
  exact eq_cons_of_lookAhead ahead nz

theorem bodyParts_letter (isZero : lookAhead (text.drop n) = 48)
    (isCh : isPrefixLetter res (lookAhead (text.drop (n + 1))))
    (selects : base = res ∨ base = 0) :
    bodyParts base (text.drop n) = ([48, lookAhead (text.drop (n + 1))], res,
        (text.drop (n + 2)).takeWhile (isDigitOf res)) := by
  have nz : lookAhead (text.drop (n + 1)) ≠ 0 := by
    unfold isPrefixLetter at isCh
    omega
  rw [drop_of_lookAhead isZero (by decide)]
  conv_lhs => rw [drop_of_lookAhead rfl nz]
  exact bodyParts_prefixed selects isCh _

theorem bodyParts_zero (isZero : lookAhead (text.drop n) = 48)
    (other : ∀ res, isPrefixLetter res (lookAhead (text.drop (n + 1))) → ¬(base = res ∨ base = 0))
    (isBase : (if base ≠ 0 then base else 8) = res) (pos : 0 < res) :
    bodyParts base (text.drop n) =
      ([], res, 48 :: (text.drop (n + 1)).takeWhile (isDigitOf res)) := by
  rw [drop_of_lookAhead isZero (by decide), bodyParts_plain (noPrefix_of_letter other), plainBase,
    head?_cons, if_pos rfl, isBase, takeWhile_cons_of_pos (isDigitOf_zero pos)]

theorem bodyParts_notZero (notZero : lookAhead (text.drop n) ≠ 48)
    (isBase : (if base ≠ 0 then base else 10) = res) :
    bodyParts base (text.drop n) = ([], res, (text.drop n).takeWhile (isDigitOf res)) := by
  have notHead : (text.drop n).head? ≠ some 48 := by
    intro isHead
    obtain ⟨rest, isText⟩ := head?_eq_some_iff.mp isHead
    rw [isText] at notZero
    exact notZero rfl
  rw [bodyParts_plain (noPrefix_of_ne notZero), plainBase, if_neg notHead, isBase]

theorem scanDecimal_integer (isInteger : directive.conversion = 105) (text : List Int) :
    scanDecimal wordBits directive text = itemOutcome wordBits directive 0 0 text := by
  have tail_drop (n : Nat) : (text.drop n).tail = text.drop (n + 1) := tail_drop
  unfold scanDecimal
  split_ifs with atEnd
  · exact (itemOutcome_atEnd atEnd).symm
  rw [readSign_eq]
  simp only [isInteger, true_and, tail_drop]
  split_ifs with isZero isX isB
  · have isCh : isPrefixLetter 16 _ := .inl ⟨rfl, tolower_eq_x.mp isX⟩
    exact scanDigits_required atEnd (bodyParts_letter isZero isCh (.inr rfl))
  · have isCh : isPrefixLetter 2 _ := .inr ⟨rfl, tolower_eq_b.mp isB⟩
    exact scanDigits_required atEnd (bodyParts_letter isZero isCh (.inr rfl))
  · apply scanDigits_zero atEnd
    apply bodyParts_zero isZero _ rfl (by decide)
    intro res isCh _
    rw [tolower_eq_x] at isX
    rw [tolower_eq_b] at isB
    unfold isPrefixLetter at isCh
    omega
  · have parts : bodyParts 0 _ = ([], 10, _) := bodyParts_notZero isZero rfl
    exact scanDigits_required atEnd parts

theorem scanDecimal_eq (text : List Int) : scanDecimal wordBits directive text =
      itemOutcome wordBits directive (if directive.conversion = 105 then 0 else 10) 0 text := by
  split_ifs with isInteger
  · exact scanDecimal_integer isInteger text
  unfold scanDecimal
  split_ifs with atEnd
  · exact (itemOutcome_atEnd atEnd).symm
  · rw [readSign_eq]
    simp only [isInteger]
    exact scanDigits_plain atEnd (by decide) (by decide) (by decide)

theorem cutTo_isPrefix (width : Nat) (text : List Int) : cutTo width text <+: text := by
  unfold cutTo
  split_ifs
  · exact prefix_rfl
  · exact take_prefix _ _

theorem limited_drop (width n : Nat) (text : List Int) :
    limited (if width = 0 then none else some (width - n)) (text.drop n) =
      (cutTo width text).drop n := by
  unfold cutTo
  split_ifs with unlimited
  · rfl
  · exact drop_take.symm

theorem within_iff {c : Int} (nz : c ≠ 0) : lookAhead (text.drop n) = c ∧ within width n = true ↔
      lookAhead ((cutTo width text).drop n) = c := by
  unfold within cutTo
  split_ifs with unlimited
  · simp [unlimited]
  rw [drop_take]
  simp only [unlimited, decide_false, Bool.false_or, decide_eq_true_eq]
  cases behind : width - n with
  | zero =>
    refine iff_of_false ?_ nz.symm
    omega
  | succ left =>
    have ahead : lookAhead ((text.drop n).take (left + 1)) = lookAhead (text.drop n) := by
      cases text.drop n with
      | nil => rfl
      | cons c rest => rfl
    omega

theorem within_letter_iff : tolower (lookAhead (text.drop n)) = 120 ∧ within width n = true ↔
      tolower (lookAhead ((cutTo width text).drop n)) = 120 := by
  rw [tolower_eq_x, tolower_eq_x, or_and_right, within_iff (by decide), within_iff (by decide)]

theorem signOf_cutTo (width : Nat) (text : List Int) : signOf (cutTo width text) = signOf text := by
  unfold cutTo
  split_ifs with unlimited
  · rfl
  obtain ⟨n, rfl⟩ := Nat.exists_eq_succ_of_ne_zero unlimited
  cases text with
  | nil => rfl
  | cons c text =>
    have sameSign := signOf_append_of_ne (cons_ne_nil c (text.take n)) (text.drop n)
    rw [cons_append, take_append_drop] at sameSign
    exact sameSign.symm

theorem readDigits_cut (base width n : Nat) (text : List Int) {run : List Int}
    (isRun : ((cutTo width text).drop n).takeWhile (isDigitOf base) = run) :
    readDigits base (if width = 0 then none else some (width - n)) 0 (text.drop n) =
        (numeral base (digitValues run) % 2 ^ 64, text.drop (n + run.length)) ∧
      (text.drop n).length - (text.drop (n + run.length)).length = run.length := by
  have inside := ( takeWhile_prefix (isDigitOf base) (l := (cutTo width text).drop n)).length_le
  have cutLe := (cutTo_isPrefix width text).length_le
  constructor
  · rw [readDigits_zero, limited_drop, drop_drop, isRun]
  · simp only [isRun, length_drop] at inside ⊢
    omega

theorem noMatch_of_run {run : List Int} (otherwise : Outcome) :
    (if 0 + run.length = 0 then Outcome.noMatch (text.drop (n + run.length)) else otherwise) =
      if run = [] then .noMatch (text.drop n) else otherwise := by
  cases run with
  | nil => rfl
  | cons c run => simp

theorem scanHexadecimal_eq (text : List Int) : scanHexadecimal wordBits directive text =
      itemOutcome wordBits directive 16 directive.width text := by
  have tail_drop (n : Nat) : (text.drop n).tail = text.drop (n + 1) := tail_drop
  have signLe : (signOf text).length ≤ text.length := by
    have isText := congrArg length (signOf_append_drop text)
    rw [length_append] at isText
    omega
  have consumed : text.length - (text.drop (signOf text).length).length = (signOf text).length := by
    rw [length_drop]
    omega
  unfold scanHexadecimal
  by_cases atEnd : lookAhead text = 0
  · rw [if_pos atEnd]
    exact (itemOutcome_atEnd atEnd).symm
  have nz : (48 : Int) ≠ 0 := by decide
  rw [if_neg atEnd, readSign_eq]
  simp only [consumed, tail_drop, within_iff nz, within_letter_iff]
  by_cases isZero : lookAhead ((cutTo directive.width text).drop (signOf text).length) = 48
  · simp only [if_pos isZero]
    by_cases isX : tolower (lookAhead ((cutTo directive.width text).drop
        ((signOf text).length + 1))) = 120
    · obtain ⟨ds, counted⟩ :=
        readDigits_cut 16 directive.width ((signOf text).length + 2) text rfl
      have isCh : isPrefixLetter 16 _ := .inl ⟨rfl, tolower_eq_x.mp isX⟩
      have parts := bodyParts_letter isZero isCh (.inl rfl)
      rw [← signOf_cutTo directive.width] at parts
      simp only [if_pos isX, ds, counted]
      rw [itemOutcome_of_parts atEnd parts, signOf_cutTo, noMatch_of_run, add_assoc]
      rfl
    obtain ⟨ds, counted⟩ :=
      readDigits_cut 16 directive.width ((signOf text).length + 1) text rfl
    have other (res : Nat) (isCh : isPrefixLetter res (lookAhead
        ((cutTo directive.width text).drop ((signOf text).length + 1)))) :
        ¬(16 = res ∨ 16 = 0) := by
      rw [tolower_eq_x] at isX
      unfold isPrefixLetter at isCh
      omega
    have parts : bodyParts 16 _ = ([], 16, _) := bodyParts_zero isZero other rfl (by decide)
    rw [← signOf_cutTo directive.width] at parts
    simp only [if_neg isX, ds]
    rw [itemOutcome_of_parts atEnd parts, signOf_cutTo, numeral_zero_cons,
      if_neg (cons_ne_nil _ _), if_neg (by omega), length_cons, length_nil,
      zero_add, add_assoc, add_comm 1]
  · obtain ⟨ds, counted⟩ := readDigits_cut 16 directive.width (signOf text).length text rfl
    have parts : bodyParts 16 _ = ([], 16, _) := bodyParts_notZero isZero rfl
    rw [← signOf_cutTo directive.width] at parts
    simp only [if_neg isZero, ds, counted]
    rw [itemOutcome_of_parts atEnd parts, signOf_cutTo, noMatch_of_run, length_nil,
      zero_add, add_zero]

theorem emod_of_bits {bits : Nat} (small : bits ≤ 64) (isNegative : Bool) (number : Nat) :
    (if isNegative then -((number % 2 ^ 64 : Nat) : Int) % 2 ^ 64
        else ((number % 2 ^ 64 : Nat) : Int)) % 2 ^ bits =
      signedNumber isNegative number % 2 ^ bits := by
  have divides : (2 : Int) ^ bits ∣ 2 ^ 64 := pow_dvd_pow 2 small
  have lowest : ((number % 2 ^ 64 : Nat) : Int) ≡ number [ZMOD 2 ^ bits] := by
    push_cast
    exact (Int.mod_modEq _ _).of_dvd divides
  cases isNegative with
  | false => exact lowest
  | true =>
    change -((number % 2 ^ 64 : Nat) : Int) % 2 ^ 64 % 2 ^ bits = -(number : Int) % 2 ^ bits
    rw [Int.emod_emod_of_dvd _ divides]
    exact lowest.neg

theorem bits_le (type : LengthModifier) (isWord : wordBits = 32 ∨ wordBits = 64) :
    type.bits wordBits ≤ 64 := by
  obtain rfl | rfl := isWord <;> cases type <;> decide

theorem itemOutcome_cases (isWord : wordBits = 32 ∨ wordBits = 64)
    (stores : directive.suppressed = false) (base width : Nat) (text : List Int) :
    (∃ value, Denotes base (item base (cutTo width text)) value ∧
      itemOutcome wordBits directive base width text =
        .matched (text.drop (item base (cutTo width text)).length)
          (some (.int (directive.type.bits wordBits)
            (value % 2 ^ directive.type.bits wordBits).toNat))) ∨
    (¬Integer base (item base (cutTo width text)) ∧
      (itemOutcome wordBits directive base width text =
          .noMatch (text.drop (item base (cutTo width text)).length) ∨
        itemOutcome wordBits directive base width text =
          .atEnd (text.drop (item base (cutTo width text)).length))) := by
  by_cases empty : (bodyParts base ((cutTo width text).drop
      (signOf (cutTo width text)).length)).2.2 = []
  · right
    constructor
    · rw [integer_iff_denotes]
      rintro ⟨value, denotes⟩
      exact (denotes_item_iff.mp denotes).1 empty
    by_cases atEnd : lookAhead text = 0
    · right
      obtain ⟨noSign, parts⟩ := item_of_atEnd base ((lookAhead_cutTo width text).trans atEnd)
      rw [itemOutcome_atEnd atEnd, item, bodyItem, noSign, length_nil, drop_zero, parts]
      rfl
    · left
      simp only [itemOutcome]
      rw [if_pos empty, if_neg atEnd]
  · left
    refine ⟨_, denotes_item_iff.mpr ⟨empty, rfl⟩, ?_⟩
    simp only [itemOutcome]
    rw [if_neg empty, storeInt, stores, ← emod_of_bits (bits_le directive.type isWord)]
    rfl

end Mlibc.Scanf
