import Mlibc.Environment
import Mlibc.FirstMatch

/-! # The environment as a list of strings -/

namespace Mlibc.Environment

open FirstMatch PointerVector

def binding (view : Text) : Option (Text × Text) :=
  (findFirst view).map fun s => (view.take s, view.drop (s + 1))

def terminated (strs : List Text) : List (Option Text) := strs.map some ++ [none]

@[simp]
theorem length_terminated (strs : List Text) : (terminated strs).length = strs.length + 1 := by
  simp [terminated]

@[simp]
theorem getLast?_terminated (strs : List Text) : (terminated strs).getLast? = some none := by
  simp [terminated]

theorem findEnvironIndex_terminated (name : Text) (strs : List Text) :
    findEnvironIndex name (terminated strs) = .ok (index binding name strs) := by
  induction strs with
  | nil => rfl
  | cons view strs ih =>
    change findEnvironIndex name (some view :: terminated strs) = _
    rw [findEnvironIndex, index, binding, ih]
    cases findFirst view with
    | none => rfl
    | some s =>
      dsimp only [Option.map_some]
      split_ifs
      · rfl
      · rfl

def Holds (env : Environ) (strs : List Text) : Prop := env.memory = .ok (terminated strs)

/-- `environ` points to the vector, which holds the strings. -/
structure Owned (env : Environ) (strs : List Text) : Prop where
  environ_eq : env.environ = env.vector.data
  elements_eq : env.vector.elements = terminated strs

theorem Owned.holds {env : Environ} {strs : List Text} (owned : Owned env strs) :
    Holds env strs := by
  rw [Holds, Environ.memory, owned.environ_eq, ← owned.elements_eq]
  exact if_pos rfl

theorem owned_mk {vector : PointerVector} {strs : List Text}
    (elements : vector.elements = terminated strs) : Owned ⟨vector.data, vector⟩ strs :=
  ⟨rfl, elements⟩

theorem getenv_eq {env : Environ} {strs : List Text} (holds : Holds env strs)
    (name : Text) : getenv name env = .ok (lookup binding name strs) := by
  rw [getenv, show env.memory = .ok (terminated strs) from holds]
  simp only [bind, Except.bind, findEnvironIndex_terminated]
  cases found : index binding name strs with
  | none =>
    rw [index_eq_none.mp found]
    rfl
  | some k =>
    obtain ⟨before, view, after, value, rfl, rfl, bound, absent⟩ := index_eq_some found
    rw [lookup_append, absent, lookup_cons_of_eq bound]
    have atIndex : (terminated (before ++ view :: after))[before.length]? = some (some view) := by
      simp [terminated]
    simp only [atIndex]
    obtain ⟨s, first, pair⟩ := Option.map_eq_some_iff.mp bound
    cases pair
    simp only [first]
    rfl

section Mutation

variable (moves : Nat → Nat → Bool) {env : Environ} {strs : List Text}

theorem copyPointers_terminated (strs : List Text) (vector : PointerVector) :
    ∃ copied, copyPointers moves (terminated strs) vector = .ok copied ∧
      copied.elements = vector.elements ++ strs.map some := by
  induction strs generalizing vector with
  | nil => exact ⟨vector, rfl, (List.append_nil _).symm⟩
  | cons str strs ih =>
    obtain ⟨copied, copies, elements⟩ := ih (vector.push moves (some str))
    refine ⟨copied, copies, ?_⟩
    rw [elements]
    simp [push, resize]

theorem updateVector_eq (holds : Holds env strs) :
    ∃ next, updateVector moves env = .ok next ∧ Owned next strs := by
  unfold updateVector
  split_ifs with own
  · refine ⟨env, rfl, own, ?_⟩
    have memory : env.memory = .ok env.vector.elements := by
      rw [Environ.memory, own]
      exact if_pos rfl
    exact Except.ok.inj (memory.symm.trans holds)
  obtain ⟨copied, copies, elements⟩ := copyPointers_terminated moves strs env.vector.clear
  rw [show env.memory = .ok (terminated strs) from holds]
  simp only [bind, Except.bind, copies]
  refine ⟨_, rfl, owned_mk ?_⟩
  simp [push, resize, elements, clear, terminated]

def assigned (name str : Text) (overwrite : Bool) (strs : List Text) : List Text :=
  match index binding name strs with
  | some k => if overwrite then strs.set k str else strs
  | none => strs ++ [str]

def unassigned (name : Text) (strs : List Text) : List Text :=
  match index binding name strs with
  | some k => moveLast (strs.take k) (strs.drop (k + 1))
  | none => strs

theorem ensure_of {cond : Prop} [Decidable cond] (holds : cond) : ensure cond = .ok () :=
  if_pos holds

theorem assignVariable_eq (owned : Owned env strs) (name str : Text) (overwrite : Bool) :
    ∃ next, assignVariable moves name str overwrite env = .ok next ∧
      Owned next (assigned name str overwrite strs) := by
  have holds : env.memory = .ok (terminated strs) := owned.holds
  simp only [assignVariable, ensure_of owned.environ_eq, holds, findEnvironIndex_terminated, bind,
    Except.bind, assigned]
  cases found : index binding name strs with
  | none =>
    have back : env.vector.elements.getLast? = some none := by
      simp [owned.elements_eq]
    simp only [ensure_of back]
    refine ⟨_, rfl, owned_mk ?_⟩
    simp [push, resize, setBack, owned.elements_eq, terminated]
  | some k =>
    obtain ⟨before, view, after, value, rfl, rfl, _, _⟩ := index_eq_some found
    refine ⟨_, rfl, owned_mk ?_⟩
    cases overwrite with
    | false => exact owned.elements_eq
    | true => simp [owned.elements_eq, terminated]

theorem swap_terminated {vector : PointerVector} {before after : List Text} {view : Text}
    (elements : vector.elements = terminated (before ++ view :: after)) :
    vector.swap before.length (vector.elements.length - 2) = .ok { vector with
        elements := (moveLast before after ++ [view]).map some ++ [none] } := by
  rcases List.eq_nil_or_concat after with rfl | ⟨middle, last, rfl⟩
  · simp [swap, elements, terminated, moveLast]
  have shape : vector.elements =
      (before.map some ++ some view :: middle.map some) ++ [some last, none] := by
    simp [elements, terminated]
  have position : vector.elements.length - 2 =
      (before.map some ++ some view :: middle.map some).length := by
    simp only [shape, List.length_append, List.length_cons, List.length_nil]
    omega
  have first : vector.elements[before.length]? = some (some view) := by
    simp [shape]
  have second : vector.elements[vector.elements.length - 2]? = some (some last) := by
    rw [position, shape]
    simp only [List.getElem?_append_right le_rfl, Nat.sub_self, List.getElem?_cons_zero]
  have placed : vector.elements.set before.length (some last) =
      (before.map some ++ some last :: middle.map some) ++ [some last, none] := by
    simp [shape]
  have sameLength : (before.map some ++ some view :: middle.map some).length =
      (before.map some ++ some last :: middle.map some).length := by
    simp
  simp only [swap, first, second]
  rw [placed, position]
  simp [moveLast]

theorem unassignVariable_eq (owned : Owned env strs) (name : Text) :
    ∃ next, unassignVariable moves name env = .ok next ∧ Owned next (unassigned name strs) := by
  have holds : env.memory = .ok (terminated strs) := owned.holds
  simp only [unassignVariable, ensure_of owned.environ_eq, holds, findEnvironIndex_terminated,
    bind, Except.bind, unassigned]
  cases found : index binding name strs with
  | none => exact ⟨env, rfl, owned⟩
  | some k =>
    obtain ⟨before, view, after, value, rfl, rfl, _, _⟩ := index_eq_some found
    have delimited : 2 ≤ env.vector.elements.length ∧ env.vector.elements.getLast? = some none := by
      rw [owned.elements_eq, length_terminated, List.length_append, List.length_cons]
      exact ⟨by omega, getLast?_terminated _⟩
    have swaps := swap_terminated owned.elements_eq
    simp only [ensure_of delimited, swaps]
    refine ⟨_, rfl, owned_mk ?_⟩
    simp [pop, resize, setBack, terminated]

def effect : Call → List Text → List Text
  | .setenv name value overwrite, strs =>
    match findFirst name with
    | some _ => strs
    | none => assigned name (name ++ equalsSign :: value) overwrite strs
  | .putenv str, strs =>
    match binding str with
    | none => unassigned str strs
    | some (name, _) => assigned name str true strs
  | .unsetenv name, strs => unassigned name strs
  | .clearenv, strs => strs
  | .assign assignedStrs, _ => assignedStrs

theorem execute_eq (holds : Holds env strs) (call : Call) :
    ∃ next, execute moves env call = .ok next ∧ Holds next (effect call strs) := by
  obtain ⟨own, updates, owned⟩ := updateVector_eq moves holds
  cases call with
  | setenv name value overwrite =>
    cases first : findFirst name with
    | some s =>
      refine ⟨env, ?_, ?_⟩
      · simp only [execute, setenv, first]
        rfl
      · simpa only [effect, first] using holds
    | none =>
      obtain ⟨next, assigns, nextOwned⟩ := assignVariable_eq moves owned name
        (name ++ equalsSign :: value) overwrite
      refine ⟨next, ?_, ?_⟩
      · simp only [execute, setenv, first, updates, bind, Except.bind, assigns]
        rfl
      · simpa only [effect, first] using nextOwned.holds
  | putenv str =>
    cases first : findFirst str with
    | none =>
      obtain ⟨next, unassigns, nextOwned⟩ := unassignVariable_eq moves owned str
      refine ⟨next, ?_, ?_⟩
      · simp only [execute, putenv, first, updates, bind, Except.bind, unassigns]
      · simpa only [effect, binding, first, Option.map_none] using nextOwned.holds
    | some s =>
      obtain ⟨next, assigns, nextOwned⟩ := assignVariable_eq moves owned (str.take s) str true
      refine ⟨next, ?_, ?_⟩
      · simp only [execute, putenv, first, updates, bind, Except.bind, assigns]
      · simpa only [effect, binding, first, Option.map_some] using nextOwned.holds
  | unsetenv name =>
    obtain ⟨next, unassigns, nextOwned⟩ := unassignVariable_eq moves owned name
    refine ⟨next, ?_, nextOwned.holds⟩
    simp only [execute, unsetenv, updates, bind, Except.bind, unassigns]
  | clearenv => exact ⟨own, updates, owned.holds⟩
  | assign assignedStrs => exact ⟨_, rfl, rfl⟩

end Mutation

end Mlibc.Environment
