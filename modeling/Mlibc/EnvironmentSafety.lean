import Mlibc.EnvironmentMap

/-! # The environment behaves as a map -/

namespace Mlibc.Environment

open FirstMatch Function

def apply : Call → (Text → Option Text) → Text → Option Text
  | .setenv name value overwrite, table =>
    match findFirst name with
    | some _ => table
    | none =>
      if overwrite = true ∨ table name = none then
        Function.update table name (some value)
      else table
  | .putenv str, table =>
    match binding str with
    | none => Function.update table str none
    | some (name, value) => Function.update table name (some value)
  | .unsetenv name, table => Function.update table name none
  | .clearenv, _ => fun _ => none
  | .assign strs, _ => fun name => lookup binding name strs

def expected : List Call → Text → Option Text
  | [] => fun _ => none
  | call :: hist => apply call (expected hist)

def Removable (name : Text) (strs : List Text) : Prop :=
  ∀ k ∈ index binding name strs, lookup binding name (strs.drop (k + 1)) = none ∧
    Movable binding (strs.take k) (strs.drop (k + 1))

instance (name : Text) (strs : List Text) : Decidable (Removable name strs) :=
  inferInstanceAs (Decidable (∀ k ∈ index binding name strs, _))

def Sound (strs : List Text) : Call → Prop
  | .unsetenv name => Removable name strs
  | .putenv str => binding str = none → Removable str strs
  | .clearenv => ∀ str ∈ strs, binding str = none
  | .setenv _ _ _ => True
  | .assign _ => True

instance (strs : List Text) : DecidablePred (Sound strs)
  | .unsetenv name => inferInstanceAs (Decidable (Removable name strs))
  | .putenv _ => inferInstanceAs (Decidable (_ → _))
  | .clearenv => inferInstanceAs (Decidable (∀ str ∈ strs, _))
  | .setenv _ _ _ => .isTrue trivial
  | .assign _ => .isTrue trivial

theorem binding_assignment {name : Text} (plain : findFirst name = none) (value : Text) :
    binding (name ++ equalsSign :: value) = some (name, value) := by
  have first : findFirst (name ++ equalsSign :: value) = some name.length := by
    unfold findFirst at plain ⊢
    rw [List.findIdx?_append, plain]
    simp [List.findIdx?_cons]
  simp [binding, first]

theorem lookup_assigned {name str value : Text} (bound : binding str = some (name, value))
    (overwrite : Bool) (strs : List Text) (other : Text) :
    lookup binding other (assigned name str overwrite strs) =
      (if overwrite = true ∨ lookup binding name strs = none then
        update (fun name => lookup binding name strs) name (some value)
      else fun name => lookup binding name strs) other := by
  unfold assigned
  cases found : index binding name strs with
  | none =>
    have absent := index_eq_none.mp found
    rw [if_pos (.inr absent), update_apply]
    exact lookup_add bound absent other
  | some k =>
    obtain ⟨before, view, after, previous, rfl, rfl, viewBound, absent⟩ := index_eq_some found
    have present : lookup binding name (before ++ view :: after) ≠ none := by
      intro missing
      rw [index_eq_none.mpr missing] at found
      cases found
    cases overwrite with
    | false => simp [present]
    | true =>
      rw [if_pos (.inl rfl), update_apply, ← lookup_replace viewBound bound absent]
      simp

theorem lookup_unassigned_iff (name : Text) (strs : List Text) :
    (∀ other, lookup binding other (unassigned name strs) =
      update (fun name => lookup binding name strs) name none other) ↔
      Removable name strs := by
  simp only [update_apply]
  unfold unassigned Removable
  cases found : index binding name strs with
  | none =>
    constructor
    · intro _ _ impossible
      cases impossible
    intro _ other
    split_ifs with same
    · rw [same]
      exact index_eq_none.mp found
    · rfl
  | some k =>
    obtain ⟨before, view, after, value, rfl, rfl, bound, absent⟩ := index_eq_some found
    have removed : _ ↔ lookup binding name after = none ∧ Movable binding before after :=
      lookup_moveLast_iff bound absent
    simpa using removed

theorem lookup_effect_iff (strs : List Text) (call : Call) :
    (∀ name, lookup binding name (effect call strs) =
      apply call (fun name => lookup binding name strs) name) ↔ Sound strs call := by
  cases call with
  | setenv name value overwrite =>
    refine iff_of_true ?_ trivial
    intro other
    cases plain : findFirst name with
    | some _ => simp only [effect, apply, plain]
    | none =>
      simp only [effect, apply, plain]
      exact lookup_assigned (binding_assignment plain value) overwrite strs other
  | putenv str =>
    cases bound : binding str with
    | none =>
      simp only [effect, apply, Sound, bound, forall_const]
      exact lookup_unassigned_iff str strs
    | some pair =>
      simp only [effect, apply, Sound, bound]
      refine iff_of_true ?_ (by rintro ⟨⟩)
      intro other
      rw [lookup_assigned bound, if_pos (.inl rfl)]
  | unsetenv name => exact lookup_unassigned_iff name strs
  | clearenv => exact lookup_eq_none_iff
  | assign assignedStrs => exact iff_of_true (fun _ => rfl) trivial

def stringsOf : List (Option Text) → List Text
  | some str :: rest => str :: stringsOf rest
  | _ => []

theorem stringsOf_terminated (strs : List Text) : stringsOf (terminated strs) = strs := by
  induction strs with
  | nil => rfl
  | cons str strs ih => exact congrArg (str :: ·) ih

def SoundIn (call : Call) : Except Fault (List (Option Text)) → Prop
  | .ok memory => Sound (stringsOf memory) call
  | .error _ => True

instance (call : Call) : DecidablePred (SoundIn call)
  | .ok memory => inferInstanceAs (Decidable (Sound (stringsOf memory) call))
  | .error _ => .isTrue trivial

def SoundStep (s : State) (call : Call) : Prop :=
  SoundIn call (s.env.bind Environ.memory)

instance (s : State) : DecidablePred (SoundStep s) := fun call =>
  inferInstanceAs (Decidable (SoundIn call (s.env.bind Environ.memory)))

/-- `environ` is null-terminated, there was no fault, and the values are those of the history. -/
structure Behaves (s : State) (env : Environ) (strs : List Text) : Prop where
  running : s.env = .ok env
  holds : Holds env strs
  values : ∀ name, lookup binding name strs = expected s.history name

variable {s : State}

theorem Behaves.sound {env : Environ} {strs : List Text} (behaves : Behaves s env strs)
    {call : Call} (sound : SoundStep s call) :
    Sound strs call := by
  have memory : s.env.bind Environ.memory = .ok (terminated strs) := by
    rw [behaves.running]
    exact behaves.holds
  rw [SoundStep, memory] at sound
  simpa only [SoundIn, stringsOf_terminated] using sound

theorem Behaves.step {moves : Nat → Nat → Bool} {env : Environ} {strs : List Text}
    (behaves : Behaves s env strs) {call : Call}
    (sound : Sound strs call) :
    ∃ next, Behaves ⟨s.env.bind (execute moves · call), call :: s.history⟩ next
      (effect call strs) := by
  obtain ⟨next, executes, holds⟩ := execute_eq moves behaves.holds call
  have values := (lookup_effect_iff strs call).mpr sound
  have table : (fun name => lookup binding name strs) = expected s.history :=
    funext behaves.values
  refine ⟨next, ?_, holds, ?_⟩
  · rw [behaves.running]
    exact executes
  · intro name
    rw [values, table]
    rfl

theorem reachable_behaves {moves : Nat → Nat → Bool}
    (reach : (system moves).ReachableVia SoundStep s) :
    ∃ env strs, Behaves s env strs := by
  apply reach.invariant
  · rintro _ ⟨strs, rfl⟩
    exact ⟨_, strs, rfl, rfl, fun _ => rfl⟩
  rintro s call next ⟨env, strs, behaves⟩ sound steps
  cases steps
  obtain ⟨next, nextBehaves⟩ := behaves.step (behaves.sound sound)
  exact ⟨next, _, nextBehaves⟩

/-- In every run of sound calls `environ` is null-terminated and `getenv` returns the values of the
map; after a further call exactly if it is sound. -/
theorem environment_is_map {moves : Nat → Nat → Bool} {s : State}
    (reach : (system moves).ReachableVia SoundStep s) :
    ∃ env strs, s.env = .ok env ∧ env.memory = .ok (terminated strs) ∧
      (∀ name, getenv name env = .ok (expected s.history name)) ∧
      ∀ call, (∃ next, execute moves env call = .ok next ∧
        ∀ name, getenv name next = .ok (expected (call :: s.history) name)) ↔ Sound strs call := by
  obtain ⟨env, strs, behaves⟩ := reachable_behaves reach
  have table : (fun name => lookup binding name strs) = expected s.history :=
    funext behaves.values
  refine ⟨env, strs, behaves.running, behaves.holds, ?_, ?_⟩
  · intro name
    rw [getenv_eq behaves.holds, behaves.values]
  intro call
  obtain ⟨next, executes, holds⟩ := execute_eq moves behaves.holds call
  rw [← lookup_effect_iff, table]
  constructor
  · rintro ⟨other, executesToo, values⟩ name
    cases executes.symm.trans executesToo
    have value := values name
    rw [getenv_eq holds] at value
    exact Except.ok.inj value
  intro values
  refine ⟨next, executes, ?_⟩
  intro name
  rw [getenv_eq holds, values]
  rfl

/-- The storage moves with every change of the size; `C` is a string without an equals sign. -/
theorem environment_is_map_sound :
    ∃ env, (∃ s, (system fun _ _ => true).ReachableVia SoundStep s ∧ s.env = .ok env) ∧
      getenv [65] env = .ok (some [51]) ∧ getenv [66] env = .ok none := by
  have observed : ∃ s ∈ (system fun _ _ => true).run SoundStep
      ⟨.ok ⟨.array [[65, 61, 49], [67]], ⟨0, []⟩⟩, [.assign [[65, 61, 49], [67]]]⟩
      [.setenv [66] [50] false, .putenv [65, 61, 51], .unsetenv [66]], s.history =
      [.unsetenv [66], .putenv [65, 61, 51], .setenv [66] [50] false,
        .assign [[65, 61, 49], [67]]] := by
    decide +kernel
  obtain ⟨s, reach, hist⟩ := TransitionSystem.exists_reachable observed ⟨_, rfl⟩
  obtain ⟨env, strs, running, _, values, _⟩ := environment_is_map reach
  refine ⟨env, ⟨s, reach, running⟩, ?_, ?_⟩
  · rw [values, hist]
    decide +kernel
  · rw [values, hist]
    decide +kernel

def compareAfter (strs : List Text) (calls : List Call) (name : Text) :
    Option (Except Fault (Option Text) × Option Text) :=
  ((system fun _ _ => false).run (fun _ _ => True)
    ⟨.ok ⟨.array strs, ⟨0, []⟩⟩, [.assign strs]⟩ calls).map fun s =>
      (s.env.bind (getenv name), expected s.history name)

/-- `clearenv` keeps `A`; and removals of one of several strings uncover or change the value of `A`.
-/
theorem environment_differs :
    compareAfter [[65, 61, 49]] [.clearenv] [65] = some (.ok (some [49]), none) ∧
      compareAfter [[65, 61, 49], [65, 61, 50]] [.unsetenv [65]] [65] =
        some (.ok (some [50]), none) ∧
      compareAfter [[66, 61, 50], [65, 61, 49], [65, 61, 51]] [.unsetenv [66]] [65] =
        some (.ok (some [51]), some [49]) := by
  exact ⟨rfl, rfl, rfl⟩

end Mlibc.Environment
