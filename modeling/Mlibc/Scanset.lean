import Mathlib.Data.List.Basic

/-! # Scansets -/

namespace Mlibc.Scanset

open List

def dash : Int := 45

def caret : Int := 94

def closing : Int := 93

/-- The loop of `inScanset`: a range is only seen from below its character. -/
def found (c : Int) : List Int → Bool
  | [] => false
  | [first] => first = c
  | [first, second] => first = c || if second = dash then c = dash else second = c
  | first :: second :: third :: more =>
    if first = c then true
    else if second = dash ∧ first < c then
      if c ≤ third then true else found c more
    else found c (second :: third :: more)

def untilClosing (remaining : List Int) : Option (List Int) :=
  let scanOffset := if remaining.head? = some closing then 1 else 0
  ((remaining.drop scanOffset).findIdx? (· = closing)).map fun index =>
    remaining.take (index + scanOffset)

/-- The set of a directive, whose text begins behind the bracket; the format may end before it. -/
def scansetView (fmt : List Int) : Option (Bool × List Int) :=
  let invert := fmt.head? = some caret
  let remaining := if invert then fmt.tail else fmt
  (untilClosing remaining).map fun view => (invert, view)

def inScanset (fmt : List Int) (c : Int) : Option Bool :=
  (scansetView fmt).map fun (invert, view) => if found c view then !invert else invert

/-! ### What a set means -/

inductive Item where
  | single (c : Int)
  | range (first last : Int)

namespace Item

def text : Item → List Int
  | single c => [c]
  | range first last => [first, dash, last]

def Covers (c : Int) : Item → Prop
  | single other => c = other
  | range first last => first ≤ c ∧ c ≤ last

def Proper : Item → Prop
  | single c => c ≠ dash
  | range first last => first ≤ last ∧ first ≠ dash ∧ last ≠ dash

/-- A range above the dash, which is tested as if its dash were listed. -/
def AboveDash : Item → Prop
  | single _ => False
  | range first _ => dash < first

end Item

def dashIf (present : Bool) : List Int := if present then [dash] else []

def setText (leading : Bool) (items : List Item) (trailing : Bool) : List Int :=
  dashIf leading ++ (items.flatMap Item.text ++ dashIf trailing)

/-- A set: not empty, only its first character may be the bracket, and a caret only if inverted. -/
structure SetText where
  invert : Bool
  leading : Bool
  items : List Item
  trailing : Bool
  proper : ∀ item ∈ items, item.Proper
  ascii : ∀ c ∈ setText leading items trailing, 0 < c ∧ c < 128
  nonempty : setText leading items trailing ≠ []
  closed : closing ∉ (setText leading items trailing).tail
  plain : invert = false → (setText leading items trailing).head? ≠ some caret

namespace SetText

abbrev text (set : SetText) : List Int := setText set.leading set.items set.trailing

def directive (set : SetText) : List Int := (if set.invert then [caret] else []) ++ set.text

def Listed (set : SetText) (c : Int) : Prop :=
  c = dash ∧ (set.leading = true ∨ set.trailing = true) ∨ ∃ item ∈ set.items, item.Covers c

end SetText

section Found

variable {c : Int}

/-- A character that no range begins with is a member of its own. -/
theorem found_single (first : Int) {more : List Int}
    (noRange : more = [dash] ∨ more.head? ≠ some dash) :
    found c (first :: more) = (decide (first = c) || found c more) := by
  match more with
  | [] => simp [found]
  | [second] =>
    by_cases isDash : second = dash
    · simp [found, isDash, eq_comm]
    · simp [found, isDash]
  | second :: third :: more =>
    have notDash : second ≠ dash := by simpa using noRange
    by_cases here : first = c
    · simp [found, here]
    · simp [found, here, notDash]

theorem noRange_items {items : List Item} (proper : ∀ item ∈ items, item.Proper) (trailing : Bool) :
    items.flatMap Item.text ++ dashIf trailing = [dash] ∨
      (items.flatMap Item.text ++ dashIf trailing).head? ≠ some dash := by
  cases items with
  | nil => cases trailing <;> simp [dashIf]
  | cons item items =>
    have isProper := proper item mem_cons_self
    cases item with
    | single other => exact .inr (by simpa [Item.text, Item.Proper] using isProper)
    | range first last => exact .inr (by simpa [Item.text] using isProper.2.1)

theorem found_items {items : List Item} (proper : ∀ item ∈ items, item.Proper) (trailing : Bool) :
    found c (items.flatMap Item.text ++ dashIf trailing) = true ↔ c = dash ∧ trailing = true ∨
        ∃ item ∈ items, item.Covers c ∨ c = dash ∧ item.AboveDash := by
  induction items with
  | nil => cases trailing <;> simp [found, dashIf, eq_comm]
  | cons item items ih =>
    have isProper := proper item mem_cons_self
    have later := fun other mem => proper other (mem_cons_of_mem item mem)
    have noRange := noRange_items later trailing
    rw [exists_mem_cons_iff, or_left_comm, ← ih later]
    cases item with
    | single other =>
      rw [flatMap_cons, Item.text, cons_append, nil_append, cons_append, found_single other noRange]
      simp [Item.Covers, Item.AboveDash, eq_comm (a := c)]
    | range first last =>
      obtain ⟨ordered, firstPlain, lastPlain⟩ := isProper
      have fromDash : found c (dash :: last :: (items.flatMap Item.text ++ dashIf trailing)) =
          (decide (dash = c) || (decide (last = c) ||
            found c (items.flatMap Item.text ++ dashIf trailing))) := by
        rw [found_single dash (.inr (by simpa using lastPlain)), found_single last noRange]
      rw [flatMap_cons, Item.text]
      simp only [cons_append, nil_append, found, fromDash, Item.Covers, Item.AboveDash, true_and]
      generalize found c (items.flatMap Item.text ++ dashIf trailing) = rest
      cases rest <;> simp only [Bool.or_true, Bool.or_false, or_true, or_false, iff_true,
        Bool.false_eq_true] <;> split_ifs <;> simp <;> omega

end Found

namespace SetText

variable (set : SetText) {c : Int}

theorem found_text : found c set.text = true ↔
      set.Listed c ∨ c = dash ∧ ∃ item ∈ set.items, item.AboveDash := by
  have items := found_items (c := c) set.proper set.trailing
  have apart : (∃ item ∈ set.items, item.Covers c ∨ c = dash ∧ item.AboveDash) ↔
      (∃ item ∈ set.items, item.Covers c) ∨ c = dash ∧ ∃ item ∈ set.items, item.AboveDash := by
    simp only [and_or_left, exists_or, exists_and_left, and_left_comm]
  rw [apart] at items
  rw [text, setText, Listed]
  cases set.leading with
  | false =>
    rw [show dashIf false = [] from rfl, nil_append, items]
    simp only [Bool.false_eq_true, false_or, or_assoc]
  | true =>
    rw [show dashIf true = [dash] from rfl, singleton_append,
      found_single dash (noRange_items set.proper set.trailing), Bool.or_eq_true, items,
      decide_eq_true_eq]
    by_cases isDash : c = dash <;> simp [isDash, eq_comm (a := dash)]

theorem findIdx?_closing {front : List Int} (inside : closing ∉ front) (rest : List Int) :
    (front ++ closing :: rest).findIdx? (· = closing) = some front.length := by
  have absent : ∀ c ∈ front, decide (c = closing) = false :=
    fun c mem => decide_eq_false fun isClosing => inside (isClosing ▸ mem)
  simp [findIdx?_append, findIdx?_eq_none_iff.mpr absent, findIdx?_cons]

theorem untilClosing_text {text : List Int} (ne : text ≠ [])
    (closed : closing ∉ text.tail) (rest : List Int) :
    untilClosing (text ++ closing :: rest) = some text := by
  cases text with
  | nil => exact absurd rfl ne
  | cons first more =>
    rw [untilClosing, cons_append, head?_cons]
    by_cases isClosing : first = closing
    · rw [tail_cons] at closed
      simp only [isClosing, if_true, drop_succ_cons, drop_zero]
      rw [findIdx?_closing closed]
      simp
    · have inside : closing ∉ first :: more := by
        simpa [mem_cons, eq_comm (a := closing), isClosing] using closed
      simp only [Option.some.injEq, isClosing, if_false, drop_zero, Nat.add_zero, ← cons_append]
      rw [findIdx?_closing inside]
      simp

theorem scansetView_directive (rest : List Int) :
    scansetView (set.directive ++ closing :: rest) = some (set.invert, set.text) := by
  have view := untilClosing_text set.nonempty set.closed rest
  have begins : (set.text ++ closing :: rest).head? = set.text.head? :=
    head?_append_of_ne_nil set.text set.nonempty
  unfold scansetView directive
  cases invert : set.invert with
  | false =>
    simp only [Bool.false_eq_true, if_false, nil_append, begins, set.plain invert, decide_false,
      view, Option.map_some]
  | true => simp [view]

/-- A character is tested as the set lists it, except for a dash that is not listed in a set with a
range above it. -/
theorem inScanset_iff (rest : List Int) :
    (∃ result, inScanset (set.directive ++ closing :: rest) c = some result ∧
        (result = true ↔ (set.Listed c ↔ set.invert = false))) ↔
      ¬(c = dash ∧ ¬set.Listed dash ∧ ∃ item ∈ set.items, item.AboveDash) := by
  have isFound := set.found_text (c := c)
  have right : (∃ result, inScanset (set.directive ++ closing :: rest) c = some result ∧
      (result = true ↔ (set.Listed c ↔ set.invert = false))) ↔
      (found c set.text = true ↔ set.Listed c) := by
    simp only [inScanset, scansetView_directive, Option.map_some, Option.some.injEq,
      exists_eq_left']
    cases found c set.text <;> cases set.invert <;> simp
  rw [right, isFound]
  constructor
  · rintro same ⟨rfl, notListed, above⟩
    exact notListed (same.mp (.inr ⟨rfl, above⟩))
  · intro apart
    refine ⟨?_, .inl⟩
    rintro (listed | ⟨rfl, above⟩)
    · exact listed
    · by_contra notListed
      exact apart ⟨rfl, notListed, above⟩

end SetText

def lowercase : SetText where
  invert := false
  leading := false
  items := [.range 97 122]
  trailing := false
  proper := by simp [Item.Proper, dash]
  ascii := by decide
  nonempty := by decide
  closed := by decide
  plain := by decide

/-- The directive `%[a-z]` takes a dash. -/
theorem scanset_accepts_dash :
    inScanset (lowercase.directive ++ [closing]) dash = some true ∧ ¬lowercase.Listed dash := by
  refine ⟨by decide, ?_⟩
  simp [SetText.Listed, lowercase, Item.Covers, dash]

end Mlibc.Scanset
