import Mlibc.FloatNumber

/-! # The text of a floating-point number -/

namespace Mlibc.FloatText

open IntegerText Numerals List

def infWord : List Int := [105, 110, 102]

def infinityWord : List Int := [105, 110, 102, 105, 110, 105, 116, 121]

def nanWord : List Int := [110, 97, 110]

def Spells (name word : List Int) : Prop := word.map toLower = name

def HexNumber (word : List Int) : Prop :=
  ∃ ch rest, (ch = 120 ∨ ch = 88) ∧ word = 48 :: ch :: rest ∧ hexadecimal.Number rest

def Body (word : List Int) : Prop :=
  Spells infWord word ∨ Spells infinityWord word ∨ Spells nanWord word ∨
    HexNumber word ∨ decimal.Number word

def Subject : List Int → Prop := Led Body

def BeginsWith (name text : List Int) : Prop := Spells name (text.take name.length)

instance (name text : List Int) : Decidable (BeginsWith name text) :=
  inferInstanceAs (Decidable (_ = _))

def HasHexPrefix (text : List Int) : Prop :=
  text.head? = some 48 ∧ (text[1]? = some 120 ∨ text[1]? = some 88)

instance (text : List Int) : Decidable (HasHexPrefix text) := inferInstanceAs (Decidable (_ ∧ _))

def bodyLength (text : List Int) : Option Nat :=
  if BeginsWith infinityWord text then some 8
  else if BeginsWith infWord text then some 3
  else if BeginsWith nanWord text then some 3
  else if HasHexPrefix text ∧ hexadecimal.beginsNumber (text.drop 2) = true then
    some (2 + (hexadecimal.numberOf (text.drop 2)).length)
  else if decimal.beginsNumber text then some (decimal.numberOf text).length
  else none

variable {name word : List Int}

theorem Spells.length (spells : Spells name word) : word.length = name.length := by
  rw [← spells, length_map]

theorem Spells.beginsWith (spells : Spells name word) (rest : List Int) :
    BeginsWith name (word ++ rest) := by
  rw [BeginsWith, ← spells.length, take_left]
  exact spells

theorem Spells.head (spells : Spells name word) : word.head?.map toLower = name.head? := by
  rw [← spells, head?_map]

theorem BeginsWith.head {name text : List Int} (begins : BeginsWith name text)
    (ne : name ≠ []) : text.head?.map toLower = name.head? := by
  have head := Spells.head begins
  rw [head?_take, if_neg (by simpa using ne)] at head
  exact head

variable {word : List Int}

theorem head_of_hexNumber (isNum : HexNumber word) : word.head? = some 48 := by
  obtain ⟨ch, rest, _, rfl, _⟩ := isNum
  rfl

theorem beginsPlainly_body : BeginsPlainly Body := by
  have plain {c : Int} (range : 46 ≤ c) : isSpace c = false ∧ c ≠ 43 ∧ c ≠ 45 := by
    simp [isSpace]
    omega
  have ch {c : Int} (range : toLower c = 105 ∨ toLower c = 110) : 46 ≤ c := by
    unfold toLower isUpper at range
    split_ifs at range <;> simp at * <;> omega
  have spelled {name word : List Int} {a : Int} (spells : Spells name word)
      (head : name.head? = some a) (range : a = 105 ∨ a = 110) :
      ∃ c rest, word = c :: rest ∧ isSpace c = false ∧ c ≠ 43 ∧ c ≠ 45 := by
    have lower := spells.head
    rw [head] at lower
    cases word with
    | nil => cases lower
    | cons c rest =>
      cases lower
      exact ⟨c, rest, rfl, plain (ch range)⟩
  rintro word (inf | infinity | nan | hex | number)
  · exact spelled inf rfl (.inl rfl)
  · exact spelled infinity rfl (.inl rfl)
  · exact spelled nan rfl (.inr rfl)
  · obtain ⟨x, rest, _, rfl, _⟩ := hex
    exact ⟨48, x :: rest, rfl, by decide⟩
  · obtain ⟨c, rest, rfl, large, _⟩ := head_of_number number
    exact ⟨c, rest, rfl, plain large⟩

theorem spells_of_head (isBody : Body word) :
    (word.head?.map toLower = some 105 → Spells infWord word ∨ Spells infinityWord word) ∧
      (word.head?.map toLower = some 110 → Spells nanWord word) := by
  obtain inf | infinity | nan | hex | number := isBody
  · exact ⟨fun _ => .inl inf, fun head => absurd (inf.head.symm.trans head) (by decide)⟩
  · exact ⟨fun _ => .inr infinity, fun head => absurd (infinity.head.symm.trans head) (by decide)⟩
  · exact ⟨fun head => absurd (nan.head.symm.trans head) (by decide), fun _ => nan⟩
  · rw [head_of_hexNumber hex]
    exact ⟨fun head => absurd head (by decide), fun head => absurd head (by decide)⟩
  · obtain ⟨c, rest, rfl, _, notI, notN⟩ := head_of_number number
    exact ⟨fun head => absurd (Option.some.inj head) notI,
      fun head => absurd (Option.some.inj head) notN⟩

theorem head_of_body_append (isBody : Body word) (rest : List Int) :
    (word ++ rest).head? = word.head? := by
  obtain ⟨c, behind, rfl, _⟩ := beginsPlainly_body word isBody
  rfl

theorem longest_word {name text : List Int} (begins : BeginsWith name text)
    (acc : ∀ word, Spells name word → Body word)
    (bound : ∀ word rest, text = word ++ rest → Body word → word.length ≤ name.length) :
    LongestPrefix Body text (some name.length) := by
  have length : (text.take name.length).length = name.length := Spells.length begins
  have longest : LongestPrefix Body (text.take name.length ++ text.drop name.length)
      (some (text.take name.length).length) := by
    apply LongestPrefix.of_append (acc _ begins)
    intro word rest same isBody
    rw [length]
    exact bound word rest ((take_append_drop _ _).symm.trans same) isBody
  rwa [take_append_drop, length] at longest

variable {text : List Int}

theorem eq_of_hasHexPrefix (hasPrefix : HasHexPrefix text) :
    ∃ ch rest, (ch = 120 ∨ ch = 88) ∧ text = 48 :: ch :: rest := by
  obtain ⟨zero, ch⟩ := hasPrefix
  cases text with
  | nil => cases zero
  | cons c text =>
    cases zero
    cases text with
    | nil => simp at ch
    | cons x rest => exact ⟨x, rest, by simpa using ch, rfl⟩

theorem numberOf_hexPrefix {ch : Int} (isCh : ch = 120 ∨ ch = 88)
    (rest : List Int) : decimal.numberOf (48 :: ch :: rest) = [48] := by
  obtain rfl | rfl := isCh <;> simp [numberOf, digitsOf, exponentOf, decimal, isDigit]

theorem longest_hexNumber (hasPrefix : HasHexPrefix text)
    (begins : hexadecimal.beginsNumber (text.drop 2) = true) :
    LongestPrefix Body text (some (2 + (hexadecimal.numberOf (text.drop 2)).length)) := by
  obtain ⟨ch, rest, isCh, rfl⟩ := eq_of_hasHexPrefix hasPrefix
  obtain ⟨behind, split⟩ := numberOf_isPrefix hexadecimal rest
  have isHexNumber : HexNumber (48 :: ch :: hexadecimal.numberOf rest) :=
    ⟨ch, _, isCh, rfl, number_numberOf begins⟩
  have longest : LongestPrefix Body (48 :: ch :: hexadecimal.numberOf rest ++ behind)
      (some (48 :: ch :: hexadecimal.numberOf rest).length) := by
    apply LongestPrefix.of_append (.inr (.inr (.inr (.inl isHexNumber))))
    intro word remaining same isBody
    rw [cons_append, cons_append, split] at same
    have head : word.head?.map toLower = some 48 := by
      rw [← head_of_body_append isBody remaining, ← same]
      rfl
    obtain inf | infinity | nan | hex | number := isBody
    · exact absurd (inf.head.symm.trans head) (by decide)
    · exact absurd (infinity.head.symm.trans head) (by decide)
    · exact absurd (nan.head.symm.trans head) (by decide)
    · obtain ⟨other, ds, _, rfl, number⟩ := hex
      cases same
      exact Nat.add_le_add_right (length_le_numberOf number remaining) 2
    · have short := length_le_numberOf number remaining
      rw [← same, numberOf_hexPrefix isCh] at short
      exact short.trans (Nat.succ_le_succ (Nat.zero_le _))
  rw [cons_append, cons_append, split] at longest
  rw [Nat.add_comm]
  exact longest

theorem decimal_iff_body (noInfinity : ¬BeginsWith infinityWord text)
    (noInf : ¬BeginsWith infWord text) (noNan : ¬BeginsWith nanWord text)
    (noHex : ¬(HasHexPrefix text ∧ hexadecimal.beginsNumber (text.drop 2) = true)) (m : Nat) :
    decimal.Number (text.take m) ↔ Body (text.take m) := by
  constructor
  · exact fun number => .inr (.inr (.inr (.inr number)))
  intro isBody
  have split : text.take m ++ text.drop m = text := take_append_drop m text
  obtain inf | infinity | nan | hex | number := isBody
  · exact absurd (split ▸ inf.beginsWith (text.drop m)) noInf
  · exact absurd (split ▸ infinity.beginsWith (text.drop m)) noInfinity
  · exact absurd (split ▸ nan.beginsWith (text.drop m)) noNan
  · obtain ⟨ch, ds, isCh, cut, number⟩ := hex
    rw [cut] at split
    rw [← split] at noHex
    exact absurd ⟨⟨rfl, by simpa using isCh⟩, beginsNumber_of_number number (text.drop m)⟩ noHex
  · exact number

theorem longest_body (text : List Int) : LongestPrefix Body text (bodyLength text) := by
  unfold bodyLength
  by_cases infinity : BeginsWith infinityWord text
  · rw [if_pos infinity]
    apply longest_word infinity (fun word spells => .inr (.inl spells))
    rintro word rest rfl isBody
    have head := infinity.head (by decide)
    rw [head_of_body_append isBody] at head
    obtain short | long := (spells_of_head isBody).1 head
    · rw [short.length]
      decide
    · rw [long.length]
  rw [if_neg infinity]
  by_cases inf : BeginsWith infWord text
  · rw [if_pos inf]
    apply longest_word inf (fun word spells => .inl spells)
    rintro word rest rfl isBody
    have head := inf.head (by decide)
    rw [head_of_body_append isBody] at head
    obtain short | long := (spells_of_head isBody).1 head
    · rw [short.length]
    · exact absurd (long.beginsWith rest) infinity
  rw [if_neg inf]
  by_cases nan : BeginsWith nanWord text
  · rw [if_pos nan]
    apply longest_word nan (fun word spells => .inr (.inr (.inl spells)))
    rintro word rest rfl isBody
    have head := nan.head (by decide)
    rw [head_of_body_append isBody] at head
    rw [((spells_of_head isBody).2 head).length]
  rw [if_neg nan]
  by_cases hex : HasHexPrefix text ∧ hexadecimal.beginsNumber (text.drop 2) = true
  · rw [if_pos hex]
    exact longest_hexNumber hex.1 hex.2
  · rw [if_neg hex]
    apply (longest_number decimal text).congr
    exact fun m _ => decimal_iff_body infinity inf nan hex m

theorem longest_subject (text : List Int) :
    LongestPrefix Subject text ((bodyLength (afterSign text)).map ((lead text).length + ·)) :=
  longest_led beginsPlainly_body (longest_body (afterSign text))

end Mlibc.FloatText
