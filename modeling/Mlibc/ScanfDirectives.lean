import Mlibc.ScanfIntegers

/-!
# Directives with a width and a type modifier

Only the conversion `%x` keeps to the width.
-/

namespace Mlibc.Scanf

open IntegerText StringToInteger List

def modifiers : List (List Int × LengthModifier) :=
  [([], .int), ([104, 104], .char), ([104], .short), ([106], .intmax), ([108], .long),
    ([108, 108], .longLong), ([76], .longLong), ([113], .longLong), ([116], .ptrdiff),
    ([122], .size)]

/-- The text of a directive behind the percent sign.  A width is positive. -/
structure DirectiveText where
  width : List Int
  modifier : List Int
  type : LengthModifier
  conversion : Int
  isWidth : ∀ c ∈ width, isDigit c = true
  widthPositive : width = [] ∨ 0 < numeral 10 (digitValues width)
  isModifier : (modifier, type) ∈ modifiers
  isConversion : conversion ∈ [88, 99, 100, 105, 111, 115, 117, 120]

namespace DirectiveText

variable (directive : DirectiveText)

def text : List Int := directive.width ++ (directive.modifier ++ [directive.conversion])

def limit : Nat := numeral 10 (digitValues directive.width)

def meaning : Directive := ⟨false, directive.limit, directive.type, directive.conversion⟩

end DirectiveText

def Outcome.result : Outcome → Result
  | .matched rest store => .returns 1 rest store.toList
  | .noMatch rest => .returns 0 rest []
  | .atEnd rest => .returns (-1) rest []
  | .ensureFails => .ensureFails
  | .unmodelled => .unmodelled

section Reading

theorem digitValue_of_isDigit {c : Int} (digit : isDigit c = true) :
    digitValue c = some (c - 48).toNat :=
  if_pos digit

theorem le_foldl_digits (width : Nat) (ds : List Nat) :
    width ≤ ds.foldl (fun total digit => total * 10 + digit) width := by
  induction ds generalizing width with
  | nil => exact le_rfl
  | cons digit ds ih =>
    have next := ih (width * 10 + digit)
    rw [foldl_cons]
    omega

theorem readWidth_append {width : Nat} {ds rest : List Int}
    (isWidth : ∀ c ∈ ds, isDigit c = true) (stops : isDigit (lookAhead rest) = false)
    (small : width < 2 ^ 31) :
    readWidth width (ds ++ rest) =
      if (digitValues ds).foldl (fun total digit => total * 10 + digit) width < 2 ^ 31 then
        some ((digitValues ds).foldl (fun total digit => total * 10 + digit) width, rest)
      else none := by
  induction ds generalizing width with
  | nil =>
    change readWidth width rest = if width < 2 ^ 31 then some (width, rest) else none
    rw [if_pos small]
    cases rest with
    | nil => rfl
    | cons c rest =>
      rw [readWidth, if_neg]
      exact Bool.eq_false_iff.mp stops
  | cons c ds ih =>
    have digit := isWidth c mem_cons_self
    rw [cons_append, readWidth, digitValues,
      filterMap_cons_some (digitValue_of_isDigit digit), foldl_cons]
    split_ifs with fits inside inside
    · rw [ih (fun d mem => isWidth d (mem_cons_of_mem c mem)) fits]
      exact if_pos inside
    · rw [ih (fun d mem => isWidth d (mem_cons_of_mem c mem)) fits]
      exact if_neg inside
    · have bound := le_foldl_digits (width * 10 + (c - 48).toNat) (ds.filterMap digitValue)
      omega
    · rfl

variable (directive : DirectiveText) (more : List Int)

theorem readModifier_append :
    readModifier (directive.modifier ++ (directive.conversion :: more)) =
      (directive.type, directive.conversion :: more) := by
  obtain ⟨_, modifier, type, conversion, _, _, isModifier, isConversion⟩ := directive
  simp only [modifiers, mem_cons, not_mem_nil, or_false] at isModifier
  simp only [mem_cons, not_mem_nil, or_false] at isConversion
  rcases isModifier with ⟨rfl, rfl⟩ | ⟨rfl, rfl⟩ | ⟨rfl, rfl⟩ | ⟨rfl, rfl⟩ | ⟨rfl, rfl⟩ | ⟨rfl,
  rfl⟩ | ⟨rfl, rfl⟩ | ⟨rfl, rfl⟩ | ⟨rfl, rfl⟩ | ⟨rfl, rfl⟩ <;>
  rcases isConversion with rfl | rfl | rfl | rfl | rfl | rfl | rfl | rfl <;> rfl

theorem lookAhead_modifier :
    76 ≤ lookAhead (directive.modifier ++ (directive.conversion :: more)) ∧
      lookAhead (directive.modifier ++ (directive.conversion :: more)) ≠ 109 := by
  obtain ⟨_, modifier, type, conversion, _, _, isModifier, isConversion⟩ := directive
  simp only [modifiers, mem_cons, not_mem_nil, or_false] at isModifier
  simp only [mem_cons, not_mem_nil, or_false] at isConversion
  rcases isModifier with ⟨rfl, rfl⟩ | ⟨rfl, _⟩ | ⟨rfl, _⟩ | ⟨rfl, _⟩ | ⟨rfl, _⟩ | ⟨rfl, _⟩ |
    ⟨rfl, _⟩ | ⟨rfl, _⟩ | ⟨rfl, _⟩ | ⟨rfl, _⟩
  · change 76 ≤ conversion ∧ conversion ≠ 109
    omega
  all_goals simp [lookAhead]

theorem text_append :
    directive.text ++ more =
      directive.width ++ (directive.modifier ++ (directive.conversion :: more)) := by
  simp only [DirectiveText.text, append_assoc, cons_append, nil_append]

theorem lookAhead_text :
    48 ≤ lookAhead (directive.text ++ more) ∧ lookAhead (directive.text ++ more) ≠ 109 := by
  rw [text_append]
  cases isText : directive.width with
  | nil =>
    have ahead := lookAhead_modifier directive more
    exact ⟨by rw [nil_append]; omega, ahead.2⟩
  | cons c ds =>
    have digit := directive.isWidth c (isText ▸ mem_cons_self)
    simp only [isDigit, Bool.and_eq_true, decide_eq_true_eq] at digit
    change 48 ≤ c ∧ c ≠ 109
    omega

theorem readDirective_text :
    readDirective (directive.text ++ more) =
      if directive.limit < 2 ^ 31 then .ok (directive.meaning, more) else .error .undefined := by
  have ahead := lookAhead_text directive more
  have notSuppressed : lookAhead (directive.text ++ more) ≠ 42 := by omega
  have stops : isDigit (lookAhead (directive.modifier ++ (directive.conversion :: more))) =
      false := by
    have behind := lookAhead_modifier directive more
    simp only [isDigit, Bool.and_eq_false_iff, decide_eq_false_iff_not]
    omega
  have width : readWidth 0 (directive.width ++ (directive.modifier ++ _)) =
      if directive.limit < 2 ^ 31 then some (directive.limit, _) else none :=
    readWidth_append directive.isWidth stops (by decide : 0 < 2 ^ 31)
  rw [← text_append] at width
  unfold readDirective
  rw [if_neg (by omega)]
  simp only [notSuppressed, decide_false, Bool.false_eq_true, if_false, width]
  by_cases small : directive.limit < 2 ^ 31
  · simp only [if_pos small, readModifier_append]
    rfl
  · simp only [if_neg small]

variable {charcode : CharcodeClass} {isspace : Int → Bool} {wordBits : Nat}
  (percent : isspace 37 = false)
include percent

theorem doScanfLoop_text (input : List Int) (passes : Nat) (text : List Int) (matchCount : Nat)
    (stores : List Store) :
    doScanfLoop charcode isspace wordBits input (passes + 1) (37 :: (directive.text ++ more)) text
        matchCount stores =
      if directive.limit < 2 ^ 31 then
        match scanDirective charcode isspace wordBits directive.meaning text with
        | .matched rest store =>
          doScanfLoop charcode isspace wordBits input passes more rest (matchCount + 1)
            (stores ++ store.toList)
        | .noMatch rest => .returns matchCount rest stores
        | .atEnd rest => .returns (if matchCount = 0 then -1 else matchCount) rest stores
        | .ensureFails => .ensureFails
        | .unmodelled => .unmodelled
      else .undefined := by
  have notPercent : lookAhead (directive.text ++ more) ≠ 37 := by
    have ahead := lookAhead_text directive more
    omega
  have notConsumed : directive.meaning.conversion ≠ 110 := by
    intro isConsumed
    have isConversion := directive.isConversion
    rw [show directive.conversion = 110 from isConsumed] at isConversion
    revert isConversion
    decide
  rw [doScanfLoop]
  simp only [percent, Bool.false_eq_true, if_false, ne_eq, not_true, false_or, notPercent]
  rw [readDirective_text]
  by_cases small : directive.limit < 2 ^ 31
  · rw [if_pos small, if_pos small]
    simp only [if_neg notConsumed]
    rfl
  · rw [if_neg small, if_neg small]

omit percent in
theorem doScanfLoop_nil (input : List Int) (passes : Nat) (text : List Int) (matchCount : Nat)
    (stores : List Store) :
    doScanfLoop charcode isspace wordBits input passes [] text matchCount stores =
      .returns matchCount text stores := by
  cases passes <;> rfl

omit more in
theorem vsscanf_text (text : List Int) :
    vsscanf charcode isspace wordBits text (37 :: directive.text) =
      if directive.limit < 2 ^ 31 then
        (scanDirective charcode isspace wordBits directive.meaning text).result
      else .undefined := by
  rw [vsscanf, length_cons, ← append_nil directive.text, doScanfLoop_text directive [] percent]
  by_cases small : directive.limit < 2 ^ 31
  · rw [if_pos small, if_pos small]
    cases scanDirective charcode isspace wordBits directive.meaning text with
    | matched rest store =>
      dsimp only
      rw [doScanfLoop_nil]
      rfl
    | noMatch rest | atEnd rest | ensureFails | unmodelled => rfl
  · rw [if_neg small, if_neg small]

end Reading

section Integers

variable (charcode : CharcodeClass) (isspace : Int → Bool) (wordBits : Nat)

def integerConversions : List (Int × Nat) :=
  [(100, 10), (117, 10), (105, 0), (111, 8), (120, 16), (88, 16)]

/-- At most the longest beginning of an integer within the width is consumed.  If that is an
integer, its value is stored and the loop goes on; otherwise the loop ends. -/
def ConvertsInteger (directive : DirectiveText) (base : Nat) (text : List Int) : Prop :=
  ∃ n consumed,
    LongestPrefix (Begins base) (cutTo directive.limit (text.dropWhile isspace)) (some n) ∧
    consumed ≤ n ∧
    ∀ input passes more matchCount stores,
      (∀ value, Denotes base ((text.dropWhile isspace).take n) value →
        doScanfLoop charcode isspace wordBits input (passes + 1) (37 :: (directive.text ++ more))
            text matchCount stores =
          doScanfLoop charcode isspace wordBits input passes more
            ((text.dropWhile isspace).drop consumed) (matchCount + 1)
            (stores ++ [.int (directive.type.bits wordBits)
              (value % 2 ^ directive.type.bits wordBits).toNat])) ∧
      (¬Integer base ((text.dropWhile isspace).take n) →
        ∃ count : Int, (count = matchCount ∨ (count = -1 ∧ matchCount = 0)) ∧
          doScanfLoop charcode isspace wordBits input (passes + 1) (37 :: (directive.text ++ more))
            text matchCount stores =
          .returns count ((text.dropWhile isspace).drop consumed) stores)

variable {charcode isspace wordBits}

theorem scanDirective_integer {directive : Directive} {base : Nat}
    (isInteger : (directive.conversion, base) ∈ integerConversions) (text : List Int) :
    scanDirective charcode isspace wordBits directive text =
      itemOutcome wordBits directive base (if base = 16 then directive.width else 0)
        (text.dropWhile isspace) := by
  simp only [integerConversions, mem_cons, Prod.mk.injEq, not_mem_nil, or_false] at isInteger
  unfold scanDirective
  rcases isInteger with ⟨conversion, rfl⟩ | ⟨conversion, rfl⟩ | ⟨conversion, rfl⟩ |
    ⟨conversion, rfl⟩ | ⟨conversion, rfl⟩ | ⟨conversion, rfl⟩
  · rw [if_neg (by omega), if_pos (by omega), scanDecimal_eq, if_neg (by omega)]
    rfl
  · rw [if_neg (by omega), if_pos (by omega), scanDecimal_eq, if_neg (by omega)]
    rfl
  · rw [if_neg (by omega), if_pos (by omega), scanDecimal_eq, if_pos conversion]
    rfl
  · rw [if_neg (by omega), if_neg (by omega), if_pos conversion, scanOctal_eq]
    rfl
  · rw [if_neg (by omega), if_neg (by omega), if_neg (by omega), if_pos (by omega),
      scanHexadecimal_eq]
    rfl
  · rw [if_neg (by omega), if_neg (by omega), if_neg (by omega), if_pos (by omega),
      scanHexadecimal_eq]
    rfl

section Conversion

variable (percent : isspace 37 = false) (isWord : wordBits = 32 ∨ wordBits = 64)
  {directive : DirectiveText} {base : Nat}
  (isInteger : (directive.conversion, base) ∈ integerConversions) {text : List Int}
include percent isWord isInteger

theorem convertsInteger_of_longest (small : directive.limit < 2 ^ 31)
    (longest : LongestPrefix (Begins base) (cutTo directive.limit (text.dropWhile isspace))
      (some (item base (cutTo (if base = 16 then directive.limit else 0)
        (text.dropWhile isspace))).length)) :
    ConvertsInteger charcode isspace wordBits directive base text := by
  refine ⟨_, _, longest, le_rfl, ?_⟩
  intro input passes more matchCount stores
  have notSuppressed : directive.meaning.suppressed = false := rfl
  have isConversion : (directive.meaning.conversion, base) ∈ integerConversions := isInteger
  have outcome := itemOutcome_cases isWord notSuppressed base
    (if base = 16 then directive.meaning.width else 0) (text.dropWhile isspace)
  rw [doScanfLoop_text directive more percent, if_pos small, scanDirective_integer isConversion,
    ← prefix_iff_eq_take.mp ((item_isPrefix base _).trans (cutTo_isPrefix _ _))]
  obtain ⟨value, denotes, isOutcome⟩ | ⟨notInteger, isOutcome | isOutcome⟩ := outcome
  · rw [isOutcome]
    constructor
    · intro other isOther
      have same : other = value :=
        (denotes_item_iff.mp isOther).2.trans (denotes_item_iff.mp denotes).2.symm
      rw [same]
      rfl
    · intro notInteger
      exact absurd (integer_iff_denotes.mpr ⟨value, denotes⟩) notInteger
  · rw [isOutcome]
    constructor
    · intro value denotes
      exact absurd (integer_iff_denotes.mpr ⟨value, denotes⟩) notInteger
    · intro _
      exact ⟨matchCount, .inl rfl, rfl⟩
  · rw [isOutcome]
    constructor
    · intro value denotes
      exact absurd (integer_iff_denotes.mpr ⟨value, denotes⟩) notInteger
    intro _
    refine ⟨_, ?_, rfl⟩
    split_ifs with none
    · exact .inr ⟨rfl, none⟩
    · exact .inl rfl

theorem le_of_convertsInteger
    (converts : ConvertsInteger charcode isspace wordBits directive base text) :
    directive.limit < 2 ^ 31 ∧
      ∃ n, LongestPrefix (Begins base) (cutTo directive.limit (text.dropWhile isspace)) (some n) ∧
        (item base (cutTo (if base = 16 then directive.limit else 0)
          (text.dropWhile isspace))).length ≤ n := by
  obtain ⟨n, consumed, longest, consumedLe, behaves⟩ := converts
  obtain ⟨matched, failed⟩ := behaves [] 0 [] 0 []
  have ret : ∃ count stores,
      doScanfLoop charcode isspace wordBits [] 1 (37 :: (directive.text ++ [])) text 0 [] =
        .returns count ((text.dropWhile isspace).drop consumed) stores := by
    by_cases integer : Integer base ((text.dropWhile isspace).take n)
    · obtain ⟨value, denotes⟩ := integer_iff_denotes.mp integer
      exact ⟨_, _, matched value denotes⟩
    · obtain ⟨count, _, isResult⟩ := failed integer
      exact ⟨count, _, isResult⟩
  obtain ⟨count, stores, isResult⟩ := ret
  rw [doScanfLoop_text directive [] percent] at isResult
  have small : directive.limit < 2 ^ 31 := by
    by_contra large
    rw [if_neg large] at isResult
    cases isResult
  refine ⟨small, n, longest, ?_⟩
  rw [if_pos small] at isResult
  have notSuppressed : directive.meaning.suppressed = false := rfl
  have isConversion : (directive.meaning.conversion, base) ∈ integerConversions := isInteger
  rw [scanDirective_integer isConversion] at isResult
  have sameRest : (text.dropWhile isspace).drop consumed = (text.dropWhile isspace).drop
      (item base (cutTo (if base = 16 then directive.meaning.width else 0)
        (text.dropWhile isspace))).length := by
    obtain ⟨_, _, isOutcome⟩ | ⟨_, isOutcome | isOutcome⟩ := itemOutcome_cases isWord notSuppressed
        base (if base = 16 then directive.meaning.width else 0) (text.dropWhile isspace)
    all_goals
      rw [isOutcome] at isResult
      exact (Result.returns.inj isResult).2.1.symm
  have sameLength := congrArg length sameRest
  have itemLe := ((item_isPrefix base _).trans (cutTo_isPrefix
    (if base = 16 then directive.meaning.width else 0) (text.dropWhile isspace))).length_le
  simp only [length_drop] at sameLength
  change (item base (cutTo (if base = 16 then directive.meaning.width else 0) _)).length ≤ n
  omega

end Conversion

end Integers

section Inputs

theorem noModifier : ([], .int) ∈ modifiers := by decide

def fourWide : DirectiveText where
  width := [52]
  modifier := [108]
  type := .long
  conversion := 100
  isWidth := by decide
  widthPositive := by decide
  isModifier := by decide
  isConversion := by decide

def twoWide : DirectiveText where
  width := [50]
  modifier := []
  type := .int
  conversion := 100
  isWidth := by decide
  widthPositive := by decide
  isModifier := noModifier
  isConversion := by decide

end Inputs

end Mlibc.Scanf
