import Mathlib.Data.Finset.Basic
import Mathlib.Logic.Function.Basic

/-!
# Transition systems of threads

A label resolves every choice of a step, so that an interleaving is a sequence of labels.
-/

namespace Mlibc

/-- A statement about all words is not decided by going through them. -/
noncomputable instance (priority := 2000) decidableForallWord (p : UInt32 → Prop) :
    Decidable (∀ word, p word) :=
  Classical.propDecidable _

/-- Initial states, and a partial step for each label. -/
structure TransitionSystem (State Label : Type*) where
  initial : State → Prop
  step : State → Label → Option State

namespace TransitionSystem

variable {State Label : Type*} (system : TransitionSystem State Label)

/-- The state is reached by steps that are allowed. -/
inductive ReachableVia (allowed : State → Label → Prop) : State → Prop where
  | initial {s : State} : system.initial s → ReachableVia allowed s
  | step {s next : State} {label : Label} : ReachableVia allowed s → allowed s label →
      system.step s label = some next → ReachableVia allowed next

def Reachable : State → Prop := system.ReachableVia fun _ _ => True

def run (allowed : State → Label → Prop) [∀ s, DecidablePred (allowed s)] :
    State → List Label → Option State
  | s, [] => some s
  | s, label :: labels =>
    if allowed s label then
      match system.step s label with
      | none => none
      | some next => run allowed next labels
    else none

variable {system} {allowed : State → Label → Prop}

theorem ReachableVia.invariant {property : State → Prop}
    (holdsInitially : ∀ s, system.initial s → property s)
    (preserved : ∀ s label next, property s → allowed s label →
      system.step s label = some next → property next)
    {s : State} (reach : system.ReachableVia allowed s) :
    property s := by
  induction reach with
  | initial starts => exact holdsInitially _ starts
  | step _ meets steps ih => exact preserved _ _ _ ih meets steps

theorem ReachableVia.mono {weaker : State → Label → Prop}
    (implied : ∀ s label, allowed s label → weaker s label)
    {s : State} (reach : system.ReachableVia allowed s) :
    system.ReachableVia weaker s := by
  induction reach with
  | initial starts => exact .initial starts
  | step _ meets steps ih => exact .step ih (implied _ _ meets) steps

theorem ReachableVia.run [∀ s, DecidablePred (allowed s)] {s final : State} {labels : List Label}
    (reach : system.ReachableVia allowed s)
    (runs : system.run allowed s labels = some final) :
    system.ReachableVia allowed final := by
  induction labels generalizing s with
  | nil =>
    cases runs
    exact reach
  | cons label labels ih =>
    rw [TransitionSystem.run] at runs
    split_ifs at runs with meets
    cases steps : system.step s label with
    | none => simp [steps] at runs
    | some next =>
      rw [steps] at runs
      exact ih (.step reach meets steps) runs

theorem reachable_of_run [∀ s, DecidablePred (allowed s)] {s final : State} {labels : List Label}
    (runs : system.run allowed s labels = some final)
    (starts : system.initial s) : system.ReachableVia allowed final :=
  (ReachableVia.initial starts).run runs

theorem exists_reachable [∀ s, DecidablePred (allowed s)] {s : State}
    {labels : List Label} {property : State → Prop}
    (observed : ∃ final ∈ system.run allowed s labels, property final)
    (starts : system.initial s) : ∃ final, system.ReachableVia allowed final ∧ property final :=
  observed.imp fun _ ⟨runs, holds⟩ => ⟨reachable_of_run runs starts, holds⟩

end TransitionSystem

/-- A system of threads: the step of one thread on the shared state and its
own local state. -/
structure ThreadSystem (τ Shared Local Label : Type*) where
  initialShared : Shared → Prop
  initialLocal : τ → Local → Prop
  threadStep : τ → Label → Shared → Local → Option (Shared × Local)

/-- The shared state and the local states of the threads. -/
structure ThreadState (τ Shared Local : Type*) where
  shared : Shared
  threads : τ → Local

namespace ThreadSystem

variable {τ Shared Local Label : Type*} [DecidableEq τ] (system : ThreadSystem τ Shared Local Label)

def interleaving : TransitionSystem (ThreadState τ Shared Local) (τ × Label) where
  initial s := system.initialShared s.shared ∧ ∀ t, system.initialLocal t (s.threads t)
  step s label :=
    match system.threadStep label.1 label.2 s.shared (s.threads label.1) with
    | none => none
    | some (mem, own) => some ⟨mem, Function.update s.threads label.1 own⟩

variable {system}

theorem interleaving_step {s next : ThreadState τ Shared Local} {t : τ} {label : Label}
    (steps : system.interleaving.step s (t, label) = some next) :
    ∃ mem own, system.threadStep t label s.shared (s.threads t) = some (mem, own) ∧
      next = ⟨mem, Function.update s.threads t own⟩ := by
  simp only [interleaving] at steps
  split at steps
  · cases steps
  · next mem own stepped =>
    cases steps
    exact ⟨mem, own, stepped, rfl⟩

/-- The thread-modular invariant rule: after every step there is ghost data with which the
invariants of the shared state and of all threads hold again. -/
theorem reachable_invariant {Ghost : Type*}
    {allowed : ThreadState τ Shared Local → τ × Label → Prop}
    (sharedInvariant : Ghost → Shared → Prop)
    (localInvariant : Ghost → τ → Shared → Local → Prop)
    (starts : ∀ mem, system.initialShared mem → ∃ ghost, sharedInvariant ghost mem ∧
        ∀ t own, system.initialLocal t own → localInvariant ghost t mem own)
    (preserved : ∀ ghost s t label mem own, sharedInvariant ghost s.shared →
      localInvariant ghost t s.shared (s.threads t) →
      allowed s (t, label) →
      system.threadStep t label s.shared (s.threads t) = some (mem, own) →
      ∃ newGhost, sharedInvariant newGhost mem ∧ localInvariant newGhost t mem own ∧
        ∀ other, other ≠ t → ∀ otherOwn, localInvariant ghost other s.shared otherOwn →
          localInvariant newGhost other mem otherOwn)
    {s : ThreadState τ Shared Local}
    (reach : system.interleaving.ReachableVia allowed s) :
    ∃ ghost, sharedInvariant ghost s.shared ∧
      ∀ t, localInvariant ghost t s.shared (s.threads t) := by
  induction reach with
  | initial stateStarts =>
    obtain ⟨sharedStarts, localStarts⟩ := stateStarts
    obtain ⟨ghost, sharedHolds, localHolds⟩ := starts _ sharedStarts
    exact ⟨ghost, sharedHolds, fun t => localHolds t _ (localStarts t)⟩
  | @step s next label _ meets steps ih =>
    obtain ⟨t, label⟩ := label
    obtain ⟨ghost, sharedHolds, localHolds⟩ := ih
    obtain ⟨mem, own, stepped, rfl⟩ := interleaving_step steps
    obtain ⟨newGhost, newShared, newOwn, others⟩ :=
      preserved ghost s t label mem own sharedHolds (localHolds t) meets stepped
    refine ⟨newGhost, newShared, ?_⟩
    intro other
    by_cases same : other = t
    · subst other
      simpa using newOwn
    · simpa [Function.update_of_ne same] using others other same _ (localHolds other)

end ThreadSystem

end Mlibc
