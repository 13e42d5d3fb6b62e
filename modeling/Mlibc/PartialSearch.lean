import Mathlib.Tactic.Common

/-! # The search for an accepted element of a list -/

namespace Mlibc.PartialSearch

variable {ι ε : Type*} (probe : ι → Except ε Bool)

def search : List ι → Except ε (Option ι)
  | [] => .ok none
  | element :: rest =>
    match probe element with
    | .error error => .error error
    | .ok true => .ok (some element)
    | .ok false => search rest

def Fails (list : List ι) : Prop :=
  ∃ before element after error, list = before ++ element :: after ∧
    (∀ other ∈ before, probe other ≠ .ok true) ∧ probe element = .error error

variable {probe} {list : List ι}

theorem mem_of_search_eq_some {element : ι} (found : search probe list = .ok (some element)) :
    element ∈ list ∧ probe element = .ok true := by
  induction list with
  | nil => cases found
  | cons first rest ih =>
    rw [search] at found
    split at found
    · cases found
    · next acc =>
        cases found
        exact ⟨List.mem_cons_self, acc⟩
    · obtain ⟨mem, acc⟩ := ih found
      exact ⟨List.mem_cons_of_mem _ mem, acc⟩

theorem rejected_of_search_eq_none (absent : search probe list = .ok none) :
    ∀ element ∈ list, probe element = .ok false := by
  induction list with
  | nil => simp
  | cons first rest ih =>
    rw [search] at absent
    split at absent
    · cases absent
    · cases absent
    · next rejected => exact List.forall_mem_cons.mpr ⟨rejected, ih absent⟩

theorem exists_search_iff : (∃ result, search probe list = .ok result) ↔ ¬Fails probe list := by
  induction list with
  | nil => simp [search, Fails]
  | cons first rest ih =>
    rw [search]
    cases probed : probe first with
    | error error =>
      refine iff_of_false (by simp) (not_not_intro ?_)
      exact ⟨[], first, rest, error, rfl, by simp, probed⟩
    | ok acc =>
      cases acc with
      | true =>
        refine iff_of_true ⟨_, rfl⟩ ?_
        rintro ⟨before, element, after, error, split, rejected, failed⟩
        cases before with
        | nil =>
          cases split
          cases probed.symm.trans failed
        | cons other before =>
          cases split
          exact rejected first List.mem_cons_self probed
      | false =>
        rw [ih, not_iff_not]
        constructor
        · rintro ⟨before, element, after, error, rfl, rejected, failed⟩
          refine ⟨first :: before, element, after, error, rfl, ?_, failed⟩
          rw [List.forall_mem_cons, probed]
          exact ⟨by simp, rejected⟩
        rintro ⟨before, element, after, error, split, rejected, failed⟩
        cases before with
        | nil =>
          cases split
          cases probed.symm.trans failed
        | cons other before =>
          cases split
          exact ⟨before, element, after, error, rfl, (List.forall_mem_cons.mp rejected).2, failed⟩

end Mlibc.PartialSearch
