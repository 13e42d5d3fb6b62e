import Mathlib.Init

/-!
# Postconditions of programs that can fail

A program of `EStateM` that fails keeps the changes that it made before.
-/

namespace Mlibc

variable {σ ε α β : Type}

/-- From the state the program returns as the first postcondition says or fails as the
second one says. -/
def Ends (prog : EStateM ε σ α) (s : σ) (returns : α → σ → Prop) (fails : ε → σ → Prop) : Prop :=
  match prog s with
  | .ok value after => returns value after
  | .error error after => fails error after

def Never (_ : ε) (_ : σ) : Prop := False

section Rules

variable {returns : α → σ → Prop} {fails : ε → σ → Prop} {s : σ} {prog : EStateM ε σ α}
  {returns' : α → σ → Prop}

section

variable (ends : Ends prog s returns fails)

include ends

theorem Ends.mono {fails' : ε → σ → Prop}
    (returnsMore : ∀ value after, returns value after → returns' value after)
    (failsMore : ∀ error after, fails error after → fails' error after) :
    Ends prog s returns' fails' := by
  unfold Ends at ends ⊢
  cases ran : prog s with
  | ok value after =>
    rw [ran] at ends
    exact returnsMore value after ends
  | error error after =>
    rw [ran] at ends
    exact failsMore error after ends

variable (more : ∀ value after, returns value after → returns' value after)

include more

theorem Ends.imp : Ends prog s returns' fails :=
  ends.mono more (fun _ _ failed => failed)

theorem Ends.imp_any : Ends prog s returns' (fun _ _ => True) :=
  ends.mono more (fun _ _ _ => trivial)

end

theorem ends_trivial (prog : EStateM ε σ α) (s : σ) :
    Ends prog s (fun _ _ => True) (fun _ _ => True) := by
  unfold Ends
  cases prog s <;> trivial

theorem Ends.of_never (ends : Ends prog s returns Never) : Ends prog s returns fails :=
  ends.mono (fun _ _ holds => holds) (fun _ _ impossible => impossible.elim)

theorem Ends.and {fails' : ε → σ → Prop} (first : Ends prog s returns fails)
    (second : Ends prog s returns' fails') :
    Ends prog s (fun value after => returns value after ∧ returns' value after)
      (fun error after => fails error after ∧ fails' error after) := by
  unfold Ends at first second ⊢
  cases ran : prog s with
  | ok value after | error error after =>
    rw [ran] at first second
    exact ⟨first, second⟩

theorem Ends.with_run (ends : Ends prog s returns fails) :
    Ends prog s (fun value after => prog s = .ok value after ∧ returns value after)
      (fun error after => prog s = .error error after ∧ fails error after) := by
  unfold Ends at ends ⊢
  cases ran : prog s with
  | ok value after | error error after =>
    rw [ran] at ends
    exact ⟨rfl, ends⟩

theorem Ends.run (ends : Ends prog s returns Never) :
    ∃ value after, prog s = .ok value after ∧ returns value after := by
  unfold Ends at ends
  cases ran : prog s with
  | ok value after =>
    rw [ran] at ends
    exact ⟨value, after, rfl, ends⟩
  | error error after =>
    rw [ran] at ends
    exact ends.elim

theorem ends_of_run {value : α} {after : σ} (ran : prog s = .ok value after) :
    Ends prog s returns fails ↔ returns value after := by
  rw [Ends, ran]

@[simp]
theorem ends_pure (value : α) : Ends (pure value) s returns fails ↔ returns value s :=
  .rfl

@[simp]
theorem ends_throw (error : ε) :
    Ends (throw error : EStateM ε σ α) s returns fails ↔ fails error s :=
  .rfl

@[simp]
theorem ends_bind (prog : EStateM ε σ β) (next : β → EStateM ε σ α) :
    Ends (prog >>= next) s returns fails ↔
      Ends prog s (fun value after => Ends (next value) after returns fails) fails := by
  simp only [Ends, bind, EStateM.bind]
  cases prog s <;> rfl

@[simp]
theorem ends_map (prog : EStateM ε σ β) (f : β → α) : Ends (f <$> prog) s returns fails ↔
      Ends prog s (fun value after => returns (f value) after) fails := by
  simp only [Ends, Functor.map, EStateM.map]
  cases prog s <;> rfl

@[simp]
theorem ends_get {returns : σ → σ → Prop} :
    Ends (get : EStateM ε σ σ) s returns fails ↔ returns s s :=
  .rfl

@[simp]
theorem ends_modify {returns : Unit → σ → Prop} (f : σ → σ) :
    Ends (modify f : EStateM ε σ Unit) s returns fails ↔ returns () (f s) :=
  .rfl

variable {cond : Prop}

theorem ends_ite [Decidable cond] {other : EStateM ε σ α} :
    Ends (if cond then prog else other) s returns fails ↔ (cond → Ends prog s returns fails) ∧
        (¬ cond → Ends other s returns fails) := by
  by_cases meets : cond <;> simp [meets]

def require (cond : Prop) [Decidable cond] (error : ε) : EStateM ε σ Unit :=
  if cond then pure () else throw error

theorem ends_require [Decidable cond] {error : ε} {returns : Unit → σ → Prop} :
    Ends (require cond error) s returns fails ↔ (cond → returns () s) ∧ (¬ cond → fails error s) :=
  ends_ite

theorem ends_require_of [Decidable cond] {error : ε} {returns : Unit → σ → Prop} (holds : cond) :
    Ends (require cond error) s returns fails ↔ returns () s := by
  rw [ends_require]
  constructor
  · intro ends
    exact ends.1 holds
  · intro ends
    exact ⟨fun _ => ends, fun fails => absurd holds fails⟩

theorem ends_foldlM {step : α → β → EStateM ε σ α} (invariant : List β → α → σ → Prop)
    (items : List β)
    (body : ∀ passed item rest value s, items = passed ++ item :: rest → invariant passed value s →
      Ends (step value item) s (invariant (passed ++ [item])) fails)
    {value : α} (start : invariant [] value s)
    (finish : ∀ value s, invariant items value s → returns value s) :
    Ends (items.foldlM step value) s returns fails := by
  suffices loop : ∀ (rest passed : List β) (value : α) (s : σ), items = passed ++ rest →
      invariant passed value s → Ends (rest.foldlM step value) s returns fails from
    loop items [] value s rfl start
  intro rest
  induction rest with
  | nil =>
    intro passed value s split holds
    rw [List.append_nil] at split
    exact finish value s (split ▸ holds)
  | cons item rest ih =>
    intro passed value s split holds
    rw [List.foldlM_cons, ends_bind]
    refine (body passed item rest value s split holds).imp ?_
    intro value s holds
    exact ih (passed ++ [item]) value s (by rw [split, List.append_assoc]; rfl) holds

theorem forM_eq_foldlM (step : β → EStateM ε σ Unit) (items : List β) :
    items.forM step = items.foldlM (fun _ item => step item) () := by
  induction items with
  | nil => rfl
  | cons item items ih =>
    rw [List.forM, ih]
    rfl

theorem ends_forM {step : β → EStateM ε σ Unit} {returns : Unit → σ → Prop}
    (invariant : List β → σ → Prop) (items : List β)
    (body : ∀ passed item rest s, items = passed ++ item :: rest → invariant passed s →
      Ends (step item) s (fun _ after => invariant (passed ++ [item]) after) fails)
    (start : invariant [] s)
    (finish : ∀ s, invariant items s → returns () s) :
    Ends (items.forM step) s returns fails := by
  rw [forM_eq_foldlM]
  refine ends_foldlM (fun passed _ => invariant passed) items ?_ start fun _ => finish
  intro passed item rest _ s split holds
  exact body passed item rest s split holds

end Rules

end Mlibc
