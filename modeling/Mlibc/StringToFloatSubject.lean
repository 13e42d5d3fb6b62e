import Mlibc.StringToFloat

/-!
# The end of the subject sequence of a floating-point number

`strtofp` keeps a single pointer, and so never comes back to the end of a shorter number.
-/

namespace Mlibc.StringToFloat

open IntegerText FloatText List FloatText Numerals Option

variable {T : Type*} {arithmetic : Arithmetic T} {hex : Bool}

section Scans

theorem scanWhole_rest (tmp : List Int) (result : T) :
    (scanWhole arithmetic hex tmp result).2 = tmp.dropWhile (numerals hex).isNumeral := by
  induction tmp generalizing result with
  | nil => rfl
  | cons c tmp ih =>
    unfold scanWhole
    split_ifs with isNumeral
    · rw [ih, dropWhile_cons_of_pos isNumeral]
    · rw [dropWhile_cons_of_neg isNumeral]

theorem scanFraction_rest (tmp : List Int) (d result : T) :
    (scanFraction arithmetic hex tmp d result).2 = tmp.dropWhile (numerals hex).isNumeral := by
  induction tmp generalizing d result with
  | nil => rfl
  | cons c tmp ih =>
    unfold scanFraction
    split_ifs with isNumeral
    · rw [ih, dropWhile_cons_of_pos isNumeral]
    · rw [dropWhile_cons_of_neg isNumeral]

theorem scanExponent_rest (tmp : List Int) (exp : Int) :
    (scanExponent tmp exp).2 = tmp.dropWhile isDigit := by
  induction tmp generalizing exp with
  | nil => rfl
  | cons c tmp ih =>
    unfold scanExponent
    split_ifs with digit
    · rw [ih, dropWhile_cons_of_pos digit]
    · rw [dropWhile_cons_of_neg digit]

theorem skipSign_eq (text : List Int) :
    (if text.head? = some 43 ∨ text.head? = some 45 then text.drop 1 else text) =
      text.drop (signOf text).length := by
  cases text with
  | nil => rfl
  | cons c rest =>
    by_cases plus : c = 43
    · subst plus
      rfl
    by_cases minus : c = 45
    · subst minus
      rfl
    · rw [signOf_of_ne plus minus, if_neg (by simp [plus, minus])]
      rfl

theorem takeWhile_isDigit_iff (text : List Int) :
    text.takeWhile isDigit ≠ [] ↔ isDigit (text.headD 0) = true := by
  cases text with
  | nil => exact iff_of_false (by simp) (by decide)
  | cons c text =>
    by_cases digit : isDigit c = true
    · rw [takeWhile_cons_of_pos digit]
      exact iff_of_true (cons_ne_nil _ _) digit
    · rw [takeWhile_cons_of_neg digit]
      exact iff_of_false (fun ne => ne rfl) digit

theorem readExponent_rest (tmp : List Int) (result : T) :
    (numerals hex).exponentOf tmp ++ (readExponent arithmetic hex tmp result).2 = tmp := by
  cases tmp with
  | nil => rfl
  | cons ch rest =>
    unfold readExponent exponentOf
    dsimp only
    rw [skipSign_eq]
    have digits_iff := takeWhile_isDigit_iff (rest.drop (signOf rest).length)
    by_cases isCh : (numerals hex).isLetter ch = true
    · by_cases digit : isDigit ((rest.drop (signOf rest).length).headD 0) = true
      · rw [if_pos ⟨isCh, digits_iff.mpr digit⟩, if_pos isCh, if_pos digit]
        rw [scanExponent_rest, cons_append, append_assoc,
          takeWhile_append_dropWhile, signOf_append_drop]
      · rw [if_neg (fun counted => digit (digits_iff.mp counted.2)), if_pos isCh, if_neg digit]
        rfl
    · rw [if_neg (fun counted => isCh counted.1), if_neg isCh]
      rfl

theorem readNumber_rest (arithmetic : Arithmetic T) (hex : Bool) (str : List Int) :
    (numerals hex).numberOf str ++ (readNumber arithmetic hex str).2 = str := by
  have split := takeWhile_append_dropWhile (p := (numerals hex).isNumeral) (l := str)
  obtain ⟨rest, point⟩ | noPoint := point_cases (numerals hex) str
  · have behind := takeWhile_append_dropWhile (p := (numerals hex).isNumeral) (l := rest)
    rw [numberOf_of_point point, digitsOf]
    unfold readNumber
    dsimp only
    rw [scanWhole_rest, point, if_pos (head?_cons), scanFraction_rest, drop_one,
      tail_cons, append_assoc, cons_append, append_assoc, readExponent_rest,
      behind, ← point, split]
  · rw [numberOf_of_not_point noPoint, digitsOf]
    unfold readNumber
    dsimp only
    rw [scanWhole_rest, if_neg noPoint, append_assoc, readExponent_rest, split]

end Scans

def readLength (str : List Int) : Nat :=
  if str = infUpper ∨ str = infWord then 3
  else if str = infinityUpper ∨ str = infinityWord then 8
  else if str.take 3 = nanUpper ∨ str.take 3 = nanWord then 3
  else if HasHexPrefix str then 2 + (hexadecimal.numberOf (str.drop 2)).length
  else (decimal.numberOf str).length

theorem strtofp_endptr (text : List Int) :
    (strtofp arithmetic text).2 = (lead text).length + readLength (afterSign text) := by
  have length : text.length = (lead text).length + (afterSign text).length := by
    rw [← length_append, lead_append_afterSign]
  have start : text.length - (afterSign text).length = (lead text).length := by omega
  have behind : (text.dropWhile isSpace).drop (signOf (text.dropWhile isSpace)).length =
      afterSign text := rfl
  unfold strtofp readLength
  dsimp only
  rw [skipSign_eq, behind]
  by_cases inf : afterSign text = infUpper ∨ afterSign text = infWord
  · rw [if_pos inf, if_pos inf, start]
  rw [if_neg inf, if_neg inf]
  by_cases infinity : afterSign text = infinityUpper ∨ afterSign text = infinityWord
  · rw [if_pos infinity, if_pos infinity, start]
  rw [if_neg infinity, if_neg infinity]
  by_cases nan : (afterSign text).take 3 = nanUpper ∨ (afterSign text).take 3 = nanWord
  · rw [if_pos nan, if_pos nan, start]
  rw [if_neg nan, if_neg nan]
  by_cases hasPrefix : HasHexPrefix (afterSign text)
  · obtain ⟨ch, rest, _, isText⟩ := eq_of_hasHexPrefix hasPrefix
    have read := congrArg List.length (readNumber_rest arithmetic true ((afterSign text).drop 2))
    rw [if_pos hasPrefix, if_pos hasPrefix, decide_eq_true hasPrefix]
    rw [length_append, length_drop] at read
    have long : 2 ≤ (afterSign text).length := by
      rw [isText]
      simp
    change (hexadecimal.numberOf ((afterSign text).drop 2)).length + _ = _ at read
    omega
  · have read := congrArg List.length (readNumber_rest arithmetic false (afterSign text))
    rw [if_neg hasPrefix, if_neg hasPrefix, decide_eq_false hasPrefix]
    rw [length_append] at read
    change (decimal.numberOf (afterSign text)).length + _ = _ at read
    omega

theorem reportsSubject_iff {text : List Int} {endptr : Nat} : ReportsSubject text endptr ↔
      endptr = ((bodyLength (afterSign text)).map ((lead text).length + ·)).getD 0 := by
  have longest := longest_subject text
  constructor
  · rintro ⟨length, isLongest, rfl⟩
    rw [isLongest.unique longest]
  · intro isEnd
    exact ⟨_, longest, isEnd⟩

section Words

variable {str : List Int}

theorem beginsWith_inf (infinity : BeginsWith infinityWord str) : BeginsWith infWord str := by
  have cut := congrArg (take 3) infinity
  rw [← map_take, take_take] at cut
  exact cut

theorem readLength_of_letter (head : str.head?.map toLower = some 105 ∨
      str.head?.map toLower = some 110)
    (noInf : ¬(str = infUpper ∨ str = infWord))
    (noInfinity : ¬(str = infinityUpper ∨ str = infinityWord))
    (noNan : ¬(str.take 3 = nanUpper ∨ str.take 3 = nanWord)) : readLength str = 0 := by
  cases str with
  | nil => simp at head
  | cons c rest =>
    have ch : c = 105 ∨ c = 73 ∨ c = 110 ∨ c = 78 := by
      simp only [head?_cons, map_some, toLower] at head
      split_ifs at head <;> simp at * <;> omega
    have noPrefix : ¬HasHexPrefix (c :: rest) := by
      rintro ⟨zero, _⟩
      cases zero
      omega
    have empty : decimal.numberOf (c :: rest) = [] := by
      obtain rfl | rfl | rfl | rfl := ch <;> simp [numberOf, digitsOf, exponentOf, decimal, isDigit]
    rw [readLength, if_neg noInf, if_neg noInfinity, if_neg noNan, if_neg noPrefix, empty]
    rfl

theorem beginsWith_of_nan (nan : str.take 3 = nanUpper ∨ str.take 3 = nanWord) :
    BeginsWith nanWord str := by
  obtain upper | lower := nan
  · rw [BeginsWith, Spells, show nanWord.length = 3 from rfl, upper]
    decide
  · rw [BeginsWith, Spells, show nanWord.length = 3 from rfl, lower]
    decide

theorem numberOf_eq_nil_iff (noNumber : ¬decimal.beginsNumber str = true) :
    decimal.numberOf str = [] ↔ str.head? ≠ some 46 ∧ ¬BeginsExponent str := by
  have noDigit : str.takeWhile decimal.isNumeral = [] := by
    cases str with
    | nil => rfl
    | cons c rest =>
      apply takeWhile_cons_of_neg
      intro digit
      apply noNumber
      rw [beginsNumber, head?_cons, any_some, digit, Bool.true_or]
  have dropped : str.dropWhile decimal.isNumeral = str := by
    have split := takeWhile_append_dropWhile (p := decimal.isNumeral) (l := str)
    rwa [noDigit, nil_append] at split
  unfold numberOf BeginsExponent
  rw [dropped, noDigit, not_not]
  by_cases point : str.head? = some 46
  · rw [if_pos point]
    exact iff_of_false (cons_ne_nil _ _) (fun absent => absent.1 point)
  · rw [if_neg point, digitsOf, noDigit, dropped]
    exact ⟨fun empty => ⟨point, empty⟩, fun absent => absent.2⟩

theorem not_infinite (noInf : ¬BeginsWith infWord str) :
    ¬(str = infUpper ∨ str = infWord) ∧ ¬(str = infinityUpper ∨ str = infinityWord) := by
  constructor <;> rintro (rfl | rfl) <;> exact noInf (by decide)

section

variable (noInf : ¬BeginsWith infWord str) (noNan : ¬BeginsWith nanWord str)

include noInf noNan

theorem readLength_of_not : readLength str =
      if HasHexPrefix str then 2 + (hexadecimal.numberOf (str.drop 2)).length
      else (decimal.numberOf str).length := by
  rw [readLength, if_neg (not_infinite noInf).1, if_neg (not_infinite noInf).2,
    if_neg (fun nan => noNan (beginsWith_of_nan nan))]

theorem bodyLength_of_not : bodyLength str =
      if HasHexPrefix str ∧ hexadecimal.beginsNumber (str.drop 2) = true then
        some (2 + (hexadecimal.numberOf (str.drop 2)).length)
      else if decimal.beginsNumber str then some (decimal.numberOf str).length
      else none := by
  rw [FloatText.bodyLength, if_neg (fun infinity => noInf (beginsWith_inf infinity)),
    if_neg noInf, if_neg noNan]

end

theorem reads_inf (inf : BeginsWith infWord str) : bodyLength str = some (readLength str) ↔
      (str = infWord ∨ str = infUpper ∨ str = infinityWord ∨ str = infinityUpper) := by
  constructor
  · intro same
    by_contra other
    have head := inf.head (by decide)
    have notNan : ¬(str.take 3 = nanUpper ∨ str.take 3 = nanWord) := by
      intro nan
      exact absurd (head.symm.trans ((beginsWith_of_nan nan).head (by decide))) (by decide)
    have nothing : readLength str = 0 :=
      readLength_of_letter (.inl head) (by tauto) (by tauto) notNan
    rw [nothing, FloatText.bodyLength] at same
    split_ifs at same <;> cases same
  · rintro (rfl | rfl | rfl | rfl) <;> decide

theorem reads_nan (noInf : ¬BeginsWith infWord str) (nan : BeginsWith nanWord str) :
    FloatText.bodyLength str = some (readLength str) ↔
      (str.take 3 = nanWord ∨ str.take 3 = nanUpper) := by
  obtain ⟨notInf, notInfinity⟩ := not_infinite noInf
  rw [FloatText.bodyLength, if_neg (fun infinity => noInf (beginsWith_inf infinity)),
    if_neg noInf, if_pos nan]
  constructor
  · intro same
    by_contra other
    have nothing : readLength str = 0 :=
      readLength_of_letter (.inr (nan.head (by decide))) notInf notInfinity (by tauto)
    rw [nothing] at same
    cases same
  · intro spelled
    rw [readLength, if_neg notInf, if_neg notInfinity, if_pos spelled.symm]

theorem reads_hex (noInf : ¬BeginsWith infWord str) (noNan : ¬BeginsWith nanWord str)
    (hasPrefix : HasHexPrefix str) :
    bodyLength str = some (readLength str) ↔ hexadecimal.beginsNumber (str.drop 2) = true := by
  rw [bodyLength_of_not noInf noNan, readLength_of_not noInf noNan, if_pos hasPrefix]
  by_cases begins : hexadecimal.beginsNumber (str.drop 2) = true
  · rw [if_pos ⟨hasPrefix, begins⟩]
    exact iff_of_true rfl begins
  obtain ⟨ch, rest, isCh, rfl⟩ := eq_of_hasHexPrefix hasPrefix
  rw [if_neg (fun both => begins both.2), numberOf_hexPrefix isCh]
  refine iff_of_false ?_ begins
  intro same
  have length := some.inj same
  rw [length_singleton] at length
  omega

end Words

end Mlibc.StringToFloat
