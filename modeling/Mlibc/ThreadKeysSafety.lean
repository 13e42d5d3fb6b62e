import Mathlib.Data.Nat.Bitwise
import Mlibc.ThreadKeys

/-! # Values of deleted keys are not visible -/

namespace Mlibc.ThreadKeys

open Keys List

def inUse {τ Value : Type*} (key : Nat) : List (Event τ Value) → Bool
  | [] => false
  | .created other :: hist => if other = key then true else inUse key hist
  | .deleted other :: hist => if other = key then false else inUse key hist
  | .got _ _ _ :: hist => inUse key hist
  | .set _ _ _ :: hist => inUse key hist
  | .failed _ :: hist => inUse key hist

section Visible

variable {τ Value : Type*} [DecidableEq τ]

/-- The value of the latest call of `thread_key_set` by the thread since the key has been
created. -/
def latestSet (t : τ) (key : Nat) : List (Event τ Value) → Option Value
  | [] => none
  | .created other :: hist => if other = key then none else latestSet t key hist
  | .deleted _ :: hist => latestSet t key hist
  | .got _ _ _ :: hist => latestSet t key hist
  | .set setter other value :: hist =>
    if setter = t ∧ other = key then value else latestSet t key hist
  | .failed _ :: hist => latestSet t key hist

def visible (t : τ) (key : Nat) (hist : List (Event τ Value)) : Option Value :=
  if inUse key hist then latestSet t key hist else none

example : visible 0 1 [.set 0 1 (some 5), .created 1] = some 5 := by
  simp [visible, inUse, latestSet]

variable {t setter : τ} {key other : Nat} {value : Option Value} {hist : List (Event τ Value)}

theorem visible_of_not_inUse (unused : inUse key hist = false) : visible t key hist = none := by
  simp [visible, unused]

theorem visible_created : visible t key (.created key :: hist) = none := by
  simp [visible, latestSet]

theorem visible_created_of_ne (apart : key ≠ other) :
    visible t key (.created other :: hist) = visible t key hist := by
  simp [visible, inUse, latestSet, apart.symm]

theorem visible_deleted : visible t key (.deleted key :: hist) = none := by
  simp [visible, inUse]

theorem visible_deleted_of_ne (apart : key ≠ other) :
    visible t key (.deleted other :: hist) = visible t key hist := by
  simp [visible, inUse, latestSet, apart.symm]

theorem visible_set (used : inUse key hist = true) :
    visible t key (.set t key value :: hist) = value := by
  simp [visible, inUse, latestSet, used]

theorem visible_set_of_ne (apart : ¬(t = setter ∧ key = other)) :
    visible t key (.set setter other value :: hist) = visible t key hist := by
  have apart : ¬(setter = t ∧ other = key) := by
    rintro ⟨rfl, rfl⟩
    exact apart ⟨rfl, rfl⟩
  simp [visible, inUse, latestSet, apart]

end Visible

section Shows

variable {Value : Type*}

/-- An entry of a thread stands for a value: its own if it is of the present generation, and
null if it is of an earlier one. -/
structure Shows (gen : UInt64) (own : LocalKey Value) (value : Option Value) : Prop where
  notLater : own.generation ≤ gen
  current : own.generation = gen → own.value = value
  stale : own.generation < gen → value = none

variable {gen : UInt64} {own : LocalKey Value} {value : Option Value}

theorem shows_self (gen : UInt64) (value : Option Value) : Shows gen ⟨value, gen⟩ value where
  notLater := UInt64.le_refl _
  current _ := rfl
  stale later := absurd later (UInt64.lt_irrefl _)

theorem Shows.value_eq (shows : Shows gen own value)
    (fresh : ¬own.generation < gen) : own.value = value :=
  shows.current (UInt64.le_antisymm shows.notLater (UInt64.not_lt.mp fresh))

theorem Shows.countUp (shows : Shows gen own value)
    (room : gen.toNat + 1 < 2 ^ 64) : Shows (gen + 1) own none := by
  have next : (gen + 1).toNat = gen.toNat + 1 := by
    exact Nat.mod_eq_of_lt room
  have old : own.generation < gen + 1 := by
    have notLater := UInt64.le_iff_toNat_le.mp shows.notLater
    rw [UInt64.lt_iff_toNat_lt]
    omega
  constructor
  · exact UInt64.le_of_lt old
  · intro same
    rw [same] at old
    exact absurd old (UInt64.lt_irrefl _)
  · intro _
    rfl

end Shows

section Invariant

variable {τ Dtor Value : Type*} [DecidableEq τ]

/-- The tables agree with the calls so far. -/
structure Mirrors (keys : Keys τ Dtor Value) (hist : List (Event τ Value)) : Prop where
  inUse_eq : ∀ key, (keys.globals key).inUse = inUse key hist
  bounded : ∀ key, inUse key hist = true → key < pthreadKeysMax
  entry : ∀ t key, Shows (keys.globals key).generation (keys.localKeys t key) (visible t key hist)

theorem Mirrors.start : Mirrors (start τ Dtor Value) [] where
  inUse_eq _ := rfl
  bounded _ used := nomatch used
  entry _ _ := shows_self 0 none

def CountsUp (s : State τ Dtor Value) (label : τ × Call Dtor Value) : Prop :=
  match label.2 with
  | .delete key => s.keys.Valid key → (s.keys.globals key).generation.toNat + 1 < 2 ^ 64
  | _ => True

instance (s : State τ Dtor Value) : DecidablePred (CountsUp s) := fun label =>
  match label with
  | (_, .delete _) => inferInstanceAs (Decidable (_ → _))
  | (_, .create _) => .isTrue trivial
  | (_, .get _) => .isTrue trivial
  | (_, .set _ _) => .isTrue trivial

variable {keys : Keys τ Dtor Value} {hist : List (Event τ Value)}

theorem Mirrors.failed (mirrors : Mirrors keys hist) (errno : Errno) :
    Mirrors keys (.failed errno :: hist) :=
  { mirrors with }

omit [DecidableEq τ] in
theorem freeKey_eq_some {key : Nat} (free : keys.freeKey = some key) :
    key < pthreadKeysMax ∧ (keys.globals key).inUse = false := by
  have mem := mem_of_find?_eq_some free
  have found := find?_some free
  exact ⟨mem_range.mp mem, by simpa using found⟩

section

variable (mirrors : Mirrors keys hist)

include mirrors

theorem Mirrors.create {key : Nat} (low : key < pthreadKeysMax)
    (free : (keys.globals key).inUse = false) (destructor : Option Dtor) :
    Mirrors (keys.setGlobal key { keys.globals key with inUse := true, dtor := destructor })
      (.created key :: hist) := by
  constructor
  · intro other
    by_cases same : other = key
    · subst same
      simp [setGlobal, inUse]
    · simp [setGlobal, inUse, same, Ne.symm same, mirrors.inUse_eq]
  · intro other used
    by_cases same : key = other
    · exact same ▸ low
    · rw [inUse, if_neg same] at used
      exact mirrors.bounded other used
  intro t other
  have before := mirrors.entry t other
  by_cases same : other = key
  · subst same
    rw [mirrors.inUse_eq] at free
    rw [visible_of_not_inUse free] at before
    rw [visible_created]
    simpa [setGlobal] using before
  · rw [visible_created_of_ne same]
    simpa [setGlobal, same] using before

theorem Mirrors.delete {key : Nat} (room : (keys.globals key).generation.toNat + 1 < 2 ^ 64) :
    Mirrors (keys.setGlobal key ⟨false, none, (keys.globals key).generation + 1⟩)
      (.deleted key :: hist) := by
  constructor
  · intro other
    by_cases same : other = key
    · subst same
      simp [setGlobal, inUse]
    · simp [setGlobal, inUse, same, Ne.symm same, mirrors.inUse_eq]
  · intro other used
    rw [inUse] at used
    split_ifs at used
    exact mirrors.bounded other used
  · intro t other
    have before := mirrors.entry t other
    by_cases same : other = key
    · subst same
      rw [visible_deleted]
      simpa [setGlobal] using before.countUp room
    · rw [visible_deleted_of_ne same]
      simpa [setGlobal, same] using before

theorem Mirrors.setLocal {t : τ} {key : Nat} {value : Option Value} {event : Event τ Value}
    (sameUse : ∀ other, inUse other (event :: hist) = inUse other hist)
    (shown : visible t key (event :: hist) = value)
    (sameElse : ∀ setter other, ¬(setter = t ∧ other = key) →
      visible setter other (event :: hist) = visible setter other hist) :
    Mirrors (keys.setLocal t key ⟨value, (keys.globals key).generation⟩) (event :: hist) := by
  constructor
  · intro other
    rw [sameUse]
    exact mirrors.inUse_eq other
  · intro other used
    rw [sameUse] at used
    exact mirrors.bounded other used
  intro setter other
  by_cases same : setter = t ∧ other = key
  · obtain ⟨rfl, rfl⟩ := same
    rw [shown]
    simpa [Keys.setLocal] using shows_self _ value
  rw [sameElse setter other same]
  have unchanged : (keys.setLocal t key ⟨value, (keys.globals key).generation⟩).localKeys
      setter other = keys.localKeys setter other := by
    by_cases sameThread : setter = t
    · subst sameThread
      have apart : other ≠ key := fun equal => same ⟨rfl, equal⟩
      simp [Keys.setLocal, apart]
    · simp [Keys.setLocal, sameThread]
  rw [unchanged]
  exact mirrors.entry setter other

theorem Mirrors.got (t : τ) (key : Nat) (value : Option Value) :
    Mirrors keys (.got t key value :: hist) :=
  { mirrors with }

theorem Mirrors.get_eq (t : τ) (key : Nat) : (threadKeyGet t key keys).1 = visible t key hist := by
  have entry := mirrors.entry t key
  unfold threadKeyGet
  split_ifs with valid stale
  · exact (entry.stale stale).symm
  · exact entry.value_eq stale
  symm
  apply visible_of_not_inUse
  apply Bool.eq_false_iff.mpr
  intro used
  exact valid ⟨mirrors.bounded key used, (mirrors.inUse_eq key).trans used⟩

theorem Mirrors.execute {t : τ} {call : Call Dtor Value}
    (countsUp : CountsUp ⟨keys, hist⟩ (t, call)) :
    Mirrors (execute t keys call).2 ((execute t keys call).1 :: hist) := by
  cases call with
  | create destructor =>
    unfold ThreadKeys.execute threadKeyCreate
    cases free : keys.freeKey with
    | none => exact mirrors.failed _
    | some key =>
      obtain ⟨low, unused⟩ := freeKey_eq_some free
      exact mirrors.create low unused destructor
  | delete key =>
    by_cases valid : keys.Valid key
    · have result : threadKeyDelete key keys = (.ok (), _) := if_pos valid
      simp only [ThreadKeys.execute, result]
      exact mirrors.delete (countsUp valid)
    · have result : threadKeyDelete key keys = (.error .einval, keys) := if_neg valid
      simp only [ThreadKeys.execute, result]
      exact mirrors.failed _
  | get key =>
    simp only [ThreadKeys.execute, threadKeyGet]
    split_ifs with valid stale
    · apply mirrors.setLocal
      · intro _
        rfl
      · exact (mirrors.entry t key).stale stale
      · intro _ _ _
        rfl
    · exact mirrors.got _ _ _
    · exact mirrors.got _ _ _
  | set key value =>
    by_cases valid : keys.Valid key
    · have result : threadKeySet t key value keys = (.ok (), _) := if_pos valid
      simp only [ThreadKeys.execute, result]
      apply mirrors.setLocal
      · intro _
        rfl
      · exact visible_set ((mirrors.inUse_eq key).symm.trans valid.2)
      · intro _ _ apart
        exact visible_set_of_ne apart
    · have result : threadKeySet t key value keys = (.error .einval, keys) := if_neg valid
      simp only [ThreadKeys.execute, result]
      exact mirrors.failed _

end

theorem reachable_mirrors {s : State τ Dtor Value}
    (reach : (system τ Dtor Value).ReachableVia CountsUp s) :
    Mirrors s.keys s.history := by
  apply reach.invariant
  · rintro _ rfl
    exact Mirrors.start
  · rintro s ⟨t, call⟩ next mirrors countsUp steps
    cases steps
    exact mirrors.execute countsUp

/-- While no generation wraps around, `thread_key_get` returns null for a key that is not in use,
and otherwise the latest value of the thread since the key was created. -/
theorem threadKeyGet_visible {s : State τ Dtor Value}
    (reach : (system τ Dtor Value).ReachableVia CountsUp s) (t : τ) (key : Nat) :
    (threadKeyGet t key s.keys).1 =
      if inUse key s.history then latestSet t key s.history else none :=
  (reachable_mirrors reach).get_eq t key

end Invariant

/-- A key is deleted and created again: the thread that had set it sees null, and the thread that
sets it then sees its value. -/
theorem threadKeyGet_visible_reused :
    ∃ s : State Bool Unit Nat, (system Bool Unit Nat).ReachableVia CountsUp s ∧
      (threadKeyGet false 0 s.keys).1 = none ∧
      (threadKeyGet true 0 s.keys).1 = some 7 := by
  have observed : ∃ s ∈ (system Bool Unit Nat).run CountsUp ⟨start Bool Unit Nat, []⟩
      [(false, .create none), (false, .set 0 (some 5)), (false, .delete 0), (true, .create none),
        (true, .set 0 (some 7))], s.history =
      [.set true 0 (some 7), .created 0, .deleted 0, .set false 0 (some 5), .created 0] := by
    decide +kernel
  obtain ⟨s, reach, hist⟩ := TransitionSystem.exists_reachable observed rfl
  refine ⟨s, reach, ?_, ?_⟩
  · rw [threadKeyGet_visible reach, hist]
    rfl
  · rw [threadKeyGet_visible reach, hist]
    rfl

section Wrap

variable {τ Dtor Value : Type*} [DecidableEq τ] {keys next : Keys τ Dtor Value}
  {hist : List (Event τ Value)}

theorem reachable_execute {t : τ} {call : Call Dtor Value} {event : Event τ Value}
    (reach : (system τ Dtor Value).Reachable ⟨keys, hist⟩)
    (executes : execute t keys call = (event, next)) :
    (system τ Dtor Value).Reachable ⟨next, event :: hist⟩ := by
  have steps : (system τ Dtor Value).step ⟨keys, hist⟩ (t, call) = some ⟨next, event :: hist⟩ := by
    simp only [system, executes]
  exact reach.step trivial steps

theorem zero_lt_max : 0 < pthreadKeysMax := by
  rw [pthreadKeysMax]
  decide

omit [DecidableEq τ] in
theorem freeKey_zero (free : (keys.globals 0).inUse = false) : keys.freeKey = some 0 := by
  have first : range pthreadKeysMax = 0 :: (range 1023).map Nat.succ := by
    rw [pthreadKeysMax]
    exact range_succ_eq_map
  rw [freeKey, first, find?_cons_of_pos]
  simp [free]

theorem execute_create (free : (keys.globals 0).inUse = false) (t : τ) :
    execute t keys (.create none) =
      (.created 0, keys.setGlobal 0 ⟨true, none, (keys.globals 0).generation⟩) := by
  simp only [execute, threadKeyCreate, freeKey_zero free]

theorem execute_set (used : (keys.globals 0).inUse = true) (t : τ) (value : Option Value) :
    execute t keys (.set 0 value) =
      (.set t 0 value, keys.setLocal t 0 ⟨value, (keys.globals 0).generation⟩) := by
  have result : threadKeySet t 0 value keys = (.ok (), _) := if_pos ⟨zero_lt_max, used⟩
  simp only [execute, result]

theorem execute_delete (used : (keys.globals 0).inUse = true) (t : τ) : execute t keys (.delete 0) =
      (.deleted 0, keys.setGlobal 0 ⟨false, none, (keys.globals 0).generation + 1⟩) := by
  have result : threadKeyDelete 0 keys = (.ok (), _) := if_pos ⟨zero_lt_max, used⟩
  simp only [execute, result]

omit [DecidableEq τ] in
@[simp]
theorem setGlobal_setGlobal (key : Nat) (first last : KeyGlobalInfo Dtor) :
    (keys.setGlobal key first).setGlobal key last = keys.setGlobal key last := by
  simp [setGlobal]

omit [DecidableEq τ] in
@[simp]
theorem globals_setGlobal (key : Nat) (info : KeyGlobalInfo Dtor) :
    (keys.setGlobal key info).globals key = info := by
  simp [setGlobal]

theorem reachable_recycle (t : τ) (free : (keys.globals 0).inUse = false)
    (reach : (system τ Dtor Value).Reachable ⟨keys, hist⟩) :
    ∃ later, (system τ Dtor Value).Reachable
      ⟨keys.setGlobal 0 ⟨false, none, (keys.globals 0).generation + 1⟩, later⟩ := by
  have created := reachable_execute reach (execute_create free t)
  have deleted := reachable_execute created (execute_delete (by simp) t)
  simp only [setGlobal_setGlobal] at deleted
  exact ⟨_, deleted⟩

end Wrap

def recycled (deletes : UInt64) : Keys Bool Unit Nat :=
  ((Keys.start Bool Unit Nat).setLocal false 0 ⟨some 5, 0⟩).setGlobal 0 ⟨false, none, deletes⟩

theorem recycled_reachable (deletes : Nat) : ∃ hist, (system Bool Unit Nat).Reachable
      ⟨recycled (UInt64.ofNat (deletes + 1)), hist⟩ := by
  induction deletes with
  | zero =>
    have start : (system Bool Unit Nat).Reachable ⟨start Bool Unit Nat, []⟩ := .initial rfl
    have created := reachable_execute start (execute_create rfl false)
    have set := reachable_execute created (execute_set rfl false (some 5))
    have deleted := reachable_execute set (execute_delete rfl false)
    have same : recycled 1 = (((Keys.start Bool Unit Nat).setGlobal 0 ⟨true, none, 0⟩).setLocal
        false 0 ⟨some 5, 0⟩).setGlobal 0 ⟨false, none, 1⟩ := by
      simp [recycled, Keys.setGlobal, Keys.setLocal]
    exact ⟨_, same ▸ deleted⟩
  | succ deletes ih =>
    obtain ⟨hist, reach⟩ := ih
    obtain ⟨later, recycledAgain⟩ := reachable_recycle false rfl reach
    have same : recycled (UInt64.ofNat (deletes + 1 + 1)) =
        (recycled (UInt64.ofNat (deletes + 1))).setGlobal 0
          ⟨false, none, UInt64.ofNat (deletes + 1) + 1⟩ := by
      rw [recycled, recycled, setGlobal_setGlobal, UInt64.ofNat_add (deletes + 1) 1]
      rfl
    exact ⟨later, same ▸ recycledAgain⟩

/-- After 2^64 deletions of a key the value that a thread has set before the first of them is
visible again. -/
theorem threadKeyGet_stale : ∃ s : State Bool Unit Nat, (system Bool Unit Nat).Reachable s ∧
      inUse 0 s.history = true ∧ latestSet false 0 s.history = none ∧
      (threadKeyGet false 0 s.keys).1 = some 5 := by
  obtain ⟨hist, reach⟩ := recycled_reachable (2 ^ 64 - 1)
  have created := reachable_execute reach (execute_create rfl false)
  refine ⟨_, created, rfl, rfl, ?_⟩
  have valid : ((recycled (UInt64.ofNat (2 ^ 64 - 1 + 1))).setGlobal 0
      ⟨true, none, ((recycled (UInt64.ofNat (2 ^ 64 - 1 + 1))).globals 0).generation⟩).Valid 0 :=
    ⟨zero_lt_max, rfl⟩
  rw [threadKeyGet, if_pos valid]
  rfl

end Mlibc.ThreadKeys
