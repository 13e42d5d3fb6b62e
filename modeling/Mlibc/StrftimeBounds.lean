import Mlibc.Strftime

/-! # The room of formatted time -/

namespace Mlibc.Strftime

open List

section Expansion

variable (l : TimeLocale) (tm : Time.Tm) (zone : List Int)

def formatParts : Nat → List Int → Except Outcome (List Part)
  | 0, _ => .ok []
  | _ + 1, [] => .ok []
  | passes + 1, c :: fmt =>
    match if c ≠ 37 then .ok ([.char c], fmt) else readDirective l tm zone fmt with
    | .error outcome => .error outcome
    | .ok (parts, fmt) =>
      match formatParts passes fmt with
      | .error outcome => .error outcome
      | .ok more => .ok (parts ++ more)

def partText (expand : List Int → Option (List Int)) : Part → Option (List Int)
  | .char c => some [c]
  | .chunk text => some text
  | .padded zeros text => some (zeros ++ text)
  | .pair text => some text
  | .nested format => expand format

def expand : Nat → List Int → Option (List Int)
  | 0, _ => none
  | depth + 1, format =>
    match formatParts l tm zone format.length format with
    | .error _ => none
    | .ok parts => (parts.mapM (partText (expand depth))).map List.flatten

/-- Each pair that is reached fits, and each nested format fits in front of the last character, or
finds no room at all and has parts for which this holds. -/
def Told (expand : List Int → Option (List Int)) (full : List Int → Prop) (maxSize : Nat) :
    Nat → List Part → Prop
  | _, [] => True
  | offset, part :: parts =>
    let stop := offset + ((partText expand part).getD []).length
    match part with
    | .char _ => stop ≤ maxSize → Told expand full maxSize stop parts
    | .chunk _ => stop < maxSize → Told expand full maxSize stop parts
    | .padded _ _ => stop < maxSize → Told expand full maxSize stop parts
    | .pair _ => stop ≤ maxSize ∧ Told expand full maxSize stop parts
    | .nested format =>
      if offset = maxSize then full format
      else stop < maxSize ∧ Told expand full maxSize stop parts

def Reports (text : List Int) (maxSize : Nat) (outcome : Outcome) : Prop :=
  if text.length + 1 ≤ maxSize then outcome = .returns text.length text
  else ∃ stored, outcome = .returns 0 stored

def ToldFormat : Nat → Nat → List Int → Prop
  | 0, _, _ => True
  | depth + 1, maxSize, format =>
    ∀ parts, formatParts l tm zone format.length format = .ok parts →
      Told (expand l tm zone depth) (ToldFormat depth 0) maxSize 0 parts

end Expansion

section Parts

variable {nested : Nat → List Int → Outcome} {expand : List Int → Option (List Int)}
  (fits : ∀ room format text, expand format = some text → text.length < room →
    nested room format = .returns text.length text)
  {maxSize : Nat}
include fits

variable {printed : List Int}

theorem printPart_fits {part : Part} {text : List Int} (isText : partText expand part = some text)
    (room : printed.length + text.length < maxSize) :
    printPart nested maxSize printed part = .ok (printed ++ text) := by
  cases part with
  | char c | chunk chunk | pair pair =>
    cases isText
    exact if_neg (by omega)
  | padded zeros year =>
    cases isText
    rw [length_append] at room
    rw [printPart, if_neg (by omega), if_neg (by omega), if_neg (by omega)]
  | nested format =>
    rw [printPart, fits _ format text isText (by omega)]
    dsimp only
    rw [if_neg (by omega), take_length]

variable {texts : List (List Int)}

theorem printParts_fits {parts : List Part} (isTexts : parts.mapM (partText expand) = some texts)
    (room : printed.length + texts.flatten.length < maxSize) :
    parts.foldlM (printPart nested maxSize) printed = .ok (printed ++ texts.flatten) := by
  induction parts generalizing printed texts with
  | nil =>
    obtain rfl : [] = texts := by simpa using isTexts
    rw [flatten_nil, append_nil]
    rfl
  | cons part parts ih =>
    simp only [mapM_cons, Option.bind_eq_bind, Option.bind_eq_some_iff, Option.pure_def,
      Option.some.injEq] at isTexts
    obtain ⟨text, isText, texts, isTexts, rfl⟩ := isTexts
    rw [flatten_cons, length_append] at room
    rw [foldlM_cons, printPart_fits fits isText (by omega)]
    change parts.foldlM (printPart nested maxSize) (printed ++ text) = _
    rw [ih isTexts (by rw [length_append]; omega), flatten_cons, append_assoc]

variable {full : List Int → Prop}
  (returns : ∀ format text, expand format = some text → full format →
    ∃ stored, nested 0 format = .returns 0 stored)
include returns

theorem printPart_told {part : Part} {parts : List Part} {text : List Int}
    (isText : partText expand part = some text) (inside : printed.length ≤ maxSize)
    (told : Told expand full maxSize printed.length (part :: parts)) :
    printPart nested maxSize printed part = .error (.returns 0 []) ∨
      printPart nested maxSize printed part = .ok (printed ++ text) ∧
        (printed ++ text).length ≤ maxSize ∧
        Told expand full maxSize (printed ++ text).length parts := by
  unfold Told at told
  simp only [isText, Option.getD_some, ← length_append] at told
  by_cases room : printed.length + text.length < maxSize
  · refine .inr ⟨printPart_fits fits isText room, ?_⟩
    rw [← length_append] at room
    refine ⟨room.le, ?_⟩
    cases part with
    | char c => exact told room.le
    | chunk chunk | padded zeros year => exact told room
    | pair pair => exact told.2
    | nested format =>
      rw [length_append] at room
      dsimp only at told
      rw [if_neg (by omega)] at told
      exact told.2
  cases part with
  | char c =>
    cases isText
    rw [length_singleton] at room
    by_cases empty : maxSize - printed.length = 0
    · exact .inl (if_pos empty)
    · have filled : (printed ++ [c]).length ≤ maxSize := by
        rw [length_append, length_singleton]
        omega
      exact .inr ⟨if_neg empty, filled, told filled⟩
  | chunk chunk =>
    cases isText
    exact .inl (if_pos (by omega))
  | padded zeros year =>
    cases isText
    left
    rw [length_append] at room
    rw [printPart]
    split_ifs <;> first | rfl | omega
  | pair pair =>
    cases isText
    obtain ⟨filled, told⟩ := told
    refine .inr ⟨if_neg ?_, filled, told⟩
    rw [length_append] at filled
    omega
  | nested format =>
    dsimp only at told
    split_ifs at told with noRoom
    · obtain ⟨stored, isEmpty⟩ := returns format text isText told
      left
      rw [printPart, noRoom, Nat.sub_self, isEmpty]
      rfl
    · exact absurd (length_append ▸ told.1) room

theorem printParts_told {parts : List Part} (isTexts : parts.mapM (partText expand) = some texts)
    (inside : printed.length ≤ maxSize)
    (told : Told expand full maxSize printed.length parts) :
    parts.foldlM (printPart nested maxSize) printed = .error (.returns 0 []) ∨
      parts.foldlM (printPart nested maxSize) printed = .ok (printed ++ texts.flatten) := by
  induction parts generalizing printed texts with
  | nil =>
    obtain rfl : [] = texts := by simpa using isTexts
    rw [flatten_nil, append_nil]
    exact .inr rfl
  | cons part parts ih =>
    simp only [mapM_cons, Option.bind_eq_bind, Option.bind_eq_some_iff, Option.pure_def,
      Option.some.injEq] at isTexts
    obtain ⟨text, isText, texts, isTexts, rfl⟩ := isTexts
    rw [foldlM_cons, flatten_cons, ← append_assoc]
    obtain ends | ⟨goesOn, inside, told⟩ := printPart_told fits returns isText inside told
    · rw [ends]
      exact .inl rfl
    · rw [goesOn]
      exact ih isTexts inside told

end Parts

section Calls

variable {l : TimeLocale} {tm : Time.Tm} {zone : List Int}

theorem strftimeLoop_eq {nested : Nat → List Int → Outcome} {maxSize passes : Nat}
    {format printed : List Int} {parts : List Part}
    (isParts : formatParts l tm zone passes format = .ok parts) :
    strftimeLoop l tm zone nested maxSize passes format printed =
      match parts.foldlM (printPart nested maxSize) printed with
      | .error outcome => outcome
      | .ok stored => finish maxSize stored := by
  induction passes generalizing format printed parts with
  | zero =>
    cases isParts
    rfl
  | succ passes ih =>
    cases format with
    | nil =>
      cases isParts
      rfl
    | cons c fmt =>
      rw [formatParts] at isParts
      rw [strftimeLoop]
      cases read : (if c ≠ 37 then .ok ([Part.char c], fmt) else readDirective l tm zone fmt) with
      | error outcome =>
        rw [read] at isParts
        cases isParts
      | ok result =>
        obtain ⟨front, rest⟩ := result
        cases more : formatParts l tm zone passes rest with
        | error outcome =>
          simp only [read, more] at isParts
          cases isParts
        | ok back =>
          simp only [read, more] at isParts
          cases isParts
          dsimp only
          rw [foldlM_append]
          cases front.foldlM (printPart nested maxSize) printed with
          | error outcome => rfl
          | ok stored => exact ih more

theorem expand_succ {depth : Nat} {format text : List Int}
    (expands : expand l tm zone (depth + 1) format = some text) :
    ∃ parts texts, formatParts l tm zone format.length format = .ok parts ∧
      parts.mapM (partText (expand l tm zone depth)) = some texts ∧ texts.flatten = text := by
  rw [expand] at expands
  cases isParts : formatParts l tm zone format.length format with
  | error outcome =>
    rw [isParts] at expands
    cases expands
  | ok parts =>
    rw [isParts] at expands
    obtain ⟨texts, isTexts, same⟩ := Option.map_eq_some_iff.mp expands
    exact ⟨parts, texts, rfl, isTexts, same⟩

theorem strftime_fits (depth room : Nat) (format text : List Int)
    (expands : expand l tm zone depth format = some text) (fits : text.length < room) :
    strftime l tm zone depth room format = .returns text.length text := by
  induction depth generalizing room format text with
  | zero => cases expands
  | succ depth ih =>
    obtain ⟨parts, texts, isParts, isTexts, rfl⟩ := expand_succ expands
    rw [strftime, strftimeLoop_eq isParts, printParts_fits ih isTexts (by rw [length_nil]; omega)]
    dsimp only
    rw [nil_append, finish, if_neg (by omega)]

/-- The call reports as it should if the pairs and nested formats that are reached are told apart.
-/
theorem strftime_reports {depth maxSize : Nat} {format text : List Int}
    (expands : expand l tm zone depth format = some text)
    (told : ToldFormat l tm zone depth maxSize format) :
    Reports text maxSize (strftime l tm zone depth maxSize format) := by
  induction depth generalizing maxSize format text with
  | zero => cases expands
  | succ depth ih =>
    unfold Reports
    split_ifs with room
    · exact strftime_fits _ _ _ _ expands (by omega)
    obtain ⟨parts, texts, isParts, isTexts, rfl⟩ := expand_succ expands
    rw [strftime, strftimeLoop_eq isParts]
    have toldParts : Told (expand l tm zone depth) (ToldFormat l tm zone depth 0) maxSize
        ([] : List Int).length parts := told parts isParts
    obtain ends | goesOn := printParts_told (strftime_fits depth) (fun _ _ => ih) isTexts
      (Nat.zero_le _) toldParts
    · rw [ends]
      exact ⟨[], rfl⟩
    · rw [goesOn, nil_append]
      refine ⟨[], ?_⟩
      dsimp only
      rw [finish, if_pos (by omega)]

def posixLocale : TimeLocale where
  name _ _ := []
  format
    | .dateTime => [37, 97, 32, 37, 98, 32, 37, 101, 32, 37, 84, 32, 37, 89]
    | .date => [37, 109, 47, 37, 100, 47, 37, 121]
    | .time => [37, 72, 58, 37, 77, 58, 37, 83]
  eraFormat _ := []
  amStr := [65, 77]
  pmStr := [80, 77]
  tolower := id
  altDigits := []
  eras := []

def noon : Time.Tm := ⟨0, 0, 12, 1, 0, 100, 6, 0, 0, 0⟩

/-- `%X!` with room for ten characters, and `ab%X` with room for two. -/
theorem strftime_reports_noon : Reports [49, 50, 58, 48, 48, 58, 48, 48, 33] 10
        (strftime posixLocale noon [] 2 10 [37, 88, 33]) ∧
      Reports [97, 98, 49, 50, 58, 48, 48, 58, 48, 48] 2
        (strftime posixLocale noon [] 2 2 [97, 98, 37, 88]) := by
  constructor
  · apply strftime_reports
    · decide +kernel
    intro parts isParts
    obtain rfl : [Part.nested [37, 72, 58, 37, 77, 58, 37, 83], .char 33] = parts :=
      Except.ok.inj (Eq.trans (by decide +kernel) isParts)
    exact ⟨by decide +kernel, fun _ => trivial⟩
  · apply strftime_reports
    · decide +kernel
    intro parts isParts
    obtain rfl : [.char 97, .char 98, Part.nested [37, 72, 58, 37, 77, 58, 37, 83]] = parts :=
      Except.ok.inj (Eq.trans (by decide +kernel) isParts)
    intro _ _ parts isParts
    obtain rfl : [Part.chunk [49, 50], .char 58, .chunk [48, 48], .char 58, .chunk [48, 48]] =
        parts := Except.ok.inj (Eq.trans (by decide +kernel) isParts)
    exact fun impossible => absurd impossible (Nat.not_lt_zero _)

/-- The format `%X!` with room for five characters, and the format `%O` with room for one. -/
theorem strftime_truncates :
    (expand posixLocale noon [] 2 [37, 88, 33] = some [49, 50, 58, 48, 48, 58, 48, 48, 33] ∧
      strftime posixLocale noon [] 2 5 [37, 88, 33] = .returns 1 [33] ∧
      ¬Reports [49, 50, 58, 48, 48, 58, 48, 48, 33] 5
        (strftime posixLocale noon [] 2 5 [37, 88, 33])) ∧
    expand posixLocale noon [] 2 [37, 79] = some [37, 79] ∧
      strftime posixLocale noon [] 2 1 [37, 79] = .overrun ∧
      ¬Reports [37, 79] 1 (strftime posixLocale noon [] 2 1 [37, 79]) := by
  have truncated : strftime posixLocale noon [] 2 5 [37, 88, 33] = .returns 1 [33] := by
    decide +kernel
  have overrun : strftime posixLocale noon [] 2 1 [37, 79] = .overrun := by decide +kernel
  refine ⟨⟨by decide +kernel, truncated, ?_⟩, by decide +kernel, overrun, ?_⟩
  · rintro ⟨stored, absurdity⟩
    cases absurdity
  · rintro ⟨stored, absurdity⟩
    cases absurdity

end Calls

end Mlibc.Strftime
