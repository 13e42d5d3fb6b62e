import Mathlib.Tactic.Common

/-! # Lists in which the first entry for a key counts -/

namespace Mlibc.FirstMatch

variable {Entry Key Value : Type*} [DecidableEq Key] (binding : Entry → Option (Key × Value))

def lookup (key : Key) : List Entry → Option Value
  | [] => none
  | entry :: entries =>
    match binding entry with
    | none => lookup key entries
    | some (other, value) => if other = key then some value else lookup key entries

def index (key : Key) : List Entry → Option Nat
  | [] => none
  | entry :: entries =>
    match binding entry with
    | none => (index key entries).map (· + 1)
    | some (other, _) => if other = key then some 0 else (index key entries).map (· + 1)

def moveLast (before after : List Entry) : List Entry :=
  match after.getLast? with
  | none => before
  | some last => before ++ last :: after.dropLast

example : lookup some 1 [(1, 2), (1, 3)] = some 2 := by
  rw [lookup]
  rfl

variable {binding}

theorem lookup_append (key : Key) (first last : List Entry) : lookup binding key (first ++ last) =
      (lookup binding key first).or (lookup binding key last) := by
  induction first with
  | nil => rfl
  | cons entry entries ih =>
    rw [List.cons_append, lookup, lookup]
    split
    · exact ih
    · split_ifs
      · rfl
      · exact ih

variable {entries : List Entry} {key : Key} {entry : Entry}

theorem lookup_cons_of_ne (apart : ∀ value, binding entry ≠ some (key, value)) :
    lookup binding key (entry :: entries) = lookup binding key entries := by
  rw [lookup]
  split
  · rfl
  next other value bound =>
    rw [if_neg]
    rintro rfl
    exact apart value bound

variable {value : Value}

theorem lookup_cons_of_eq (bound : binding entry = some (key, value)) :
    lookup binding key (entry :: entries) = some value := by
  simp [lookup, bound]

theorem index_eq_none : index binding key entries = none ↔ lookup binding key entries = none := by
  induction entries with
  | nil => simp [index, lookup]
  | cons entry entries ih =>
    rw [index, lookup]
    split
    · simp [ih]
    · split_ifs
      · simp
      · simp [ih]

theorem lookup_eq_none_iff :
    (∀ key, lookup binding key entries = none) ↔ ∀ entry ∈ entries, binding entry = none := by
  induction entries with
  | nil => simp [lookup]
  | cons entry entries ih =>
    rw [List.forall_mem_cons, ← ih]
    cases bound : binding entry with
    | none => simp [lookup, bound]
    | some pair =>
      obtain ⟨key, value⟩ := pair
      refine iff_of_false ?_ (fun both => nomatch both.1)
      intro absent
      cases (lookup_cons_of_eq bound).symm.trans (absent key)

theorem index_eq_some {position : Nat} (found : index binding key entries = some position) :
    ∃ before entry after value, entries = before ++ entry :: after ∧ before.length = position ∧
      binding entry = some (key, value) ∧ lookup binding key before = none := by
  induction entries generalizing position with
  | nil => cases found
  | cons entry entries ih =>
    by_cases bound : ∃ value, binding entry = some (key, value)
    · obtain ⟨value, bound⟩ := bound
      simp only [index, bound, if_pos, Option.some.injEq] at found
      exact ⟨[], entry, entries, value, rfl, found, bound, rfl⟩
    have apart : ∀ value, binding entry ≠ some (key, value) := by
      intro value equal
      exact bound ⟨value, equal⟩
    have later : (index binding key entries).map (· + 1) = some position := by
      rw [← found, index]
      split
      · rfl
      next other value equal =>
        rw [if_neg]
        rintro rfl
        exact apart value equal
    obtain ⟨previous, foundLater, rfl⟩ := Option.map_eq_some_iff.mp later
    obtain ⟨before, first, after, value, rfl, rfl, bound, absent⟩ := ih foundLater
    refine ⟨entry :: before, first, after, value, rfl, rfl, bound, ?_⟩
    rw [lookup_cons_of_ne apart]
    exact absent

theorem lookup_replace {previous : Value} {old new : Entry} {before after : List Entry}
    (oldBound : binding old = some (key, previous))
    (newBound : binding new = some (key, value)) (absent : lookup binding key before = none)
    (other : Key) :
    lookup binding other (before ++ new :: after) =
      if other = key then some value else lookup binding other (before ++ old :: after) := by
  rw [lookup_append, lookup_append]
  split_ifs with same
  · subst same
    rw [absent, lookup_cons_of_eq newBound]
    rfl
  rw [lookup_cons_of_ne, lookup_cons_of_ne]
  · intro _ equal
    cases oldBound.symm.trans equal
    exact same rfl
  · intro _ equal
    cases newBound.symm.trans equal
    exact same rfl

theorem lookup_add {new : Entry} (newBound : binding new = some (key, value))
    (absent : lookup binding key entries = none)
    (other : Key) :
    lookup binding other (entries ++ [new]) =
      if other = key then some value else lookup binding other entries := by
  rw [lookup_append]
  split_ifs with same
  · subst same
    rw [absent, lookup_cons_of_eq newBound]
    rfl
  rw [lookup_cons_of_ne]
  · simp [lookup]
  · intro _ equal
    cases newBound.symm.trans equal
    exact same rfl

theorem lookup_cons_eq_append {last : Entry} (apart : ∀ value, binding last ≠ some (key, value)) :
    lookup binding key (last :: entries) = lookup binding key (entries ++ [last]) := by
  rw [lookup_append, lookup_cons_of_ne apart, lookup_cons_of_ne apart]
  simp [lookup]

variable (binding)

/-- The last entry can be moved: its key has an entry in front, or its next one has the same value.
-/
def Movable (before after : List Entry) : Prop :=
  ∀ bound ∈ after.getLast?.bind binding,
    lookup binding bound.1 before ≠ none ∨ lookup binding bound.1 after = some bound.2

instance [DecidableEq Value] (before after : List Entry) :
    Decidable (Movable binding before after) :=
  inferInstanceAs (Decidable (∀ bound ∈ after.getLast?.bind binding, _))

variable {binding}

/-- Moving the last entry to the place of the first one for a key removes just this key exactly if
it was the only one and the last entry can be moved. -/
theorem lookup_moveLast_iff {before after : List Entry} (bound : binding entry = some (key, value))
    (absent : lookup binding key before = none) :
    (∀ other, lookup binding other (moveLast before after) =
      if other = key then none else lookup binding other (before ++ entry :: after)) ↔
      lookup binding key after = none ∧ Movable binding before after := by
  have skips {other : Key} (apart : other ≠ key) (entries : List Entry) :
      lookup binding other (entry :: entries) = lookup binding other entries := by
    apply lookup_cons_of_ne
    intro _ equal
    cases bound.symm.trans equal
    exact apart rfl
  rcases List.eq_nil_or_concat after with rfl | ⟨middle, last, rfl⟩
  · constructor
    · intro _
      exact ⟨rfl, fun _ isLast => nomatch isLast⟩
    intro _ other
    change lookup binding other before = _
    split_ifs with same
    · rw [same]
      exact absent
    · rw [lookup_append, skips same]
      simp [lookup]
  rw [List.concat_eq_append]
  have moved : moveLast before (middle ++ [last]) = before ++ last :: middle := by
    simp [moveLast]
  have isLast : (middle ++ [last]).getLast?.bind binding = binding last := by
    simp
  rw [moved, Movable, isLast]
  constructor
  · intro removed
    have gone := removed key
    rw [if_pos rfl, lookup_append, absent] at gone
    have notKey : ∀ value, binding last ≠ some (key, value) := by
      intro _ equal
      rw [lookup_cons_of_eq equal] at gone
      cases gone
    refine ⟨lookup_cons_eq_append notKey ▸ gone, ?_⟩
    rintro ⟨other, value⟩ equal
    have apart : other ≠ key := by
      rintro rfl
      exact notKey _ equal
    have kept := removed other
    rw [if_neg apart, lookup_append, lookup_append, skips apart, lookup_cons_of_eq equal] at kept
    cases found : lookup binding other before with
    | none =>
      rw [found] at kept
      exact .inr kept.symm
    | some _ => exact .inl (Option.some_ne_none _)
  rintro ⟨alone, movable⟩ other
  have notKey : ∀ value, binding last ≠ some (key, value) := by
    intro value equal
    rw [lookup_append, lookup_cons_of_eq equal] at alone
    cases found : lookup binding key middle <;> simp [found] at alone
  split_ifs with same
  · rw [same, lookup_append, absent, lookup_cons_eq_append notKey, alone]
    rfl
  rw [lookup_append, lookup_append, skips same]
  by_cases equal : ∃ value, binding last = some (other, value)
  · obtain ⟨value, equal⟩ := equal
    rw [lookup_cons_of_eq equal]
    rcases movable (other, value) equal with earlier | behind
    · cases found : lookup binding other before with
      | none => exact absurd found earlier
      | some _ => rfl
    · rw [behind]
  · rw [lookup_cons_eq_append]
    intro value bound
    exact equal ⟨value, bound⟩

end Mlibc.FirstMatch
