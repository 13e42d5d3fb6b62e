import Mathlib.Tactic.Common

/-! # Streams with pushed-back elements -/

namespace Mlibc

variable {α : Type*}

/-- What a reader does: it pushes an element back, it gets some elements, or neither. -/
inductive PushbackEvent (α : Type*) where
  | pushed (element : α)
  | got (elements : List α)
  | idle
  deriving DecidableEq

namespace PushbackEvent

def Follows : List (PushbackEvent α) → List α → List α → Prop
  | [], before, after => before = after
  | .pushed element :: events, before, after => Follows events (element :: before) after
  | .got elements :: events, before, after =>
    ∃ rest, before = elements ++ rest ∧ Follows events rest after
  | .idle :: events, before, after => Follows events before after

variable {events : List (PushbackEvent α)}

theorem Follows.append {later : List (PushbackEvent α)} {before middle after : List α}
    (follows : Follows events before middle) (goesOn : Follows later middle after) :
    Follows (events ++ later) before after := by
  induction events generalizing before with
  | nil =>
    cases follows
    exact goesOn
  | cons event events ih =>
    cases event with
    | pushed element | idle => exact ih follows
    | got elements =>
      obtain ⟨rest, isBefore, followsRest⟩ := follows
      exact ⟨rest, isBefore, ih followsRest⟩

def elements : PushbackEvent α → List α
  | .got elements => elements
  | _ => []

def reported (events : List (PushbackEvent α)) : List α := events.flatMap elements

theorem Follows.reported_append {before after : List α} (follows : Follows events before after)
    (onlyReads : ∀ event ∈ events, ∀ element, event ≠ .pushed element) :
    reported events ++ after = before := by
  induction events generalizing before with
  | nil => exact Eq.symm follows
  | cons event events ih =>
    have later : ∀ event ∈ events, ∀ element, event ≠ .pushed element :=
      fun event mem => onlyReads event (List.mem_cons_of_mem _ mem)
    cases event with
    | pushed element => exact absurd rfl (onlyReads _ List.mem_cons_self element)
    | got elements =>
      obtain ⟨rest, rfl, followsRest⟩ := follows
      rw [reported, List.flatMap_cons, List.append_assoc]
      exact congrArg (elements ++ ·) (ih followsRest later)
    | idle => exact ih follows later

theorem Follows.last_in_first_out {elements : List α} {before after : List α}
    (follows : Follows (elements.map .pushed ++ events) before after)
    (onlyReads : ∀ event ∈ events, ∀ element, event ≠ .pushed element) :
    reported events ++ after = elements.reverse ++ before := by
  induction elements generalizing before with
  | nil => exact follows.reported_append onlyReads
  | cons element elements ih =>
    rw [List.reverse_cons, List.append_assoc]
    exact ih follows

end PushbackEvent

end Mlibc
