import Mlibc.ThreadExit

/-! # What the destructors can rely on -/

namespace Mlibc.ThreadExit

open ThreadKeys List Function

section Tables

variable {τ Dtor Value : Type*} [DecidableEq τ] {t : τ} {keys : Keys τ Dtor Value} {key other : Nat}

theorem setLocal_self (own : LocalKey Value) : (keys.setLocal t key own).localKeys t key = own := by
  change update keys.localKeys t (update (keys.localKeys t) key own) t key = own
  rw [update_self, update_self]

theorem setLocal_of_ne (apart : other ≠ key) (own : LocalKey Value) :
    (keys.setLocal t key own).localKeys t other = keys.localKeys t other := by
  change update keys.localKeys t (update (keys.localKeys t) key own) t other = _
  rw [update_self, update_of_ne apart]

theorem reading_congr {before after : Keys τ Dtor Value}
    (sameGlobals : after.globals = before.globals)
    (sameLocal : after.localKeys t key = before.localKeys t key) :
    reading t after key = reading t before key := by
  have sameValid : after.Valid key ↔ before.Valid key := by
    rw [Keys.Valid, Keys.Valid, sameGlobals]
  unfold reading threadKeyGet
  rw [sameGlobals, sameLocal]
  by_cases valid : before.Valid key
  · rw [if_pos (sameValid.mpr valid)]
    split_ifs <;> rfl
  · rw [if_neg valid, if_neg (mt sameValid.mp valid)]

theorem reading_setLocal (valid : keys.Valid key) (value : Option Value) :
    reading t (keys.setLocal t key ⟨value, (keys.globals key).generation⟩) key = value := by
  have stillValid : (keys.setLocal t key ⟨value, (keys.globals key).generation⟩).Valid key :=
    valid
  rw [reading, threadKeyGet, if_pos stillValid, setLocal_self]
  exact congrArg Prod.fst (if_neg (UInt64.lt_irrefl _))

theorem threadKeyGet_globals : (threadKeyGet t key keys).2.globals = keys.globals := by
  unfold threadKeyGet
  split_ifs <;> rfl

theorem reading_threadKeyGet :
    reading t (threadKeyGet t key keys).2 other = reading t keys other := by
  by_cases stale : keys.Valid key ∧
      (keys.localKeys t key).generation < (keys.globals key).generation
  · have isGet : threadKeyGet t key keys =
        (none, keys.setLocal t key ⟨none, (keys.globals key).generation⟩) := by
      rw [threadKeyGet, if_pos stale.1, if_pos stale.2]
    rw [isGet]
    by_cases same : other = key
    · subst same
      rw [reading_setLocal stale.1, reading, isGet]
    · exact reading_congr rfl (setLocal_of_ne same _)
  · have isSame : (threadKeyGet t key keys).2 = keys := by
      unfold threadKeyGet
      split_ifs with valid older
      · exact absurd ⟨valid, older⟩ stale
      · rfl
      · rfl
    rw [isSame]

theorem reading_clearValue : reading t (clearValue t key keys) other =
      if key = other then none else reading t keys other := by
  by_cases same : key = other
  · subst same
    rw [if_pos rfl, reading, threadKeyGet, clearValue, setLocal_self]
    split_ifs <;> rfl
  · rw [if_neg same]
    exact reading_congr rfl (setLocal_of_ne (Ne.symm same) _)

end Tables

section Runs

variable {τ Dtor Value : Type*} [DecidableEq τ] {t : τ} {start : Keys τ Dtor Value}
  {s next : ExitState τ Dtor Value}

def dtorOf (start : Keys τ Dtor Value) (key : Nat) : Option Dtor := (start.globals key).dtor

/-- What is left of the value of a key outside of the call of its destructor. -/
def kept : Option (Bool × Value) → Option Value
  | some (false, value) => some value
  | _ => none

/-- The table has the values of the events, and the key whose destructor is running may still have
its old value. -/
structure Mirrors (t : τ) (start : Keys τ Dtor Value) (s : ExitState τ Dtor Value) : Prop where
  done : turns s.history ++ s.phase.todo = schedule
  globals : s.keys.globals = start.globals
  others : ∀ key, (∀ todo, s.phase ≠ .inside key todo) →
    reading t s.keys key = kept (current (reading t start) key s.history)
  own : ∀ key todo, s.phase = .inside key todo → (dtorOf start key).isSome ∧
    if ownStored s.history then
      current (reading t start) key s.history = (reading t s.keys key).map (true, ·)
    else (reading t s.keys key).isSome ∧ current (reading t start) key s.history = none
  ownDtor : ∀ key value, current (reading t start) key s.history = some (true, value) →
    (dtorOf start key).isSome
  delivers : Delivered (reading t start) (dtorOf start) s.history ↔
    Careful (reading t start) s.history

section Scan

variable {keys : Keys τ Dtor Value} {round key : Nat} {todo : List (Nat × Nat)}
  (mirrors : Mirrors t start s) (isPhase : s.phase = .scanning ((round, key) :: todo))
  (sameGlobals : keys.globals = start.globals)
  (sameReads : ∀ other, reading t keys other = kept (current (reading t start) other s.history))

include mirrors isPhase

theorem Mirrors.turned : turns s.history ++ [(round, key)] ++ todo = schedule := by
  rw [append_assoc, ← mirrors.done, isPhase]
  rfl

include sameGlobals sameReads

theorem Mirrors.skip (uncalled : reading t keys key = none ∨ dtorOf start key = none) :
    Mirrors t start ⟨keys, .scanning todo, .turn round key none :: s.history⟩ := by
  have same (other : Nat) : current (reading t start) other
      (.turn round key none :: s.history) = current (reading t start) other s.history :=
    if_neg (by simp)
  refine ⟨mirrors.turned isPhase, sameGlobals, ?_, nofun, ?_, and_congr ?_ mirrors.delivers⟩
  · intro other _
    rw [same]
    exact sameReads other
  · intro other value
    rw [same]
    exact mirrors.ownDtor other value
  · rw [sameReads] at uncalled
    cases isCurrent : current (reading t start) key s.history with
    | none => simp
    | some own =>
      obtain ⟨_ | _, value⟩ := own
      · simp_all [kept]
      · obtain ⟨dtor, isDtor⟩ := Option.isSome_iff_exists.mp (mirrors.ownDtor key value isCurrent)
        simp [isDtor]

theorem Mirrors.call {dtor : Dtor} {value : Value} (isValue : reading t keys key = some value)
    (isDtor : dtorOf start key = some dtor) :
    Mirrors t start
      ⟨keys, .inside key todo, .turn round key (some (dtor, value)) :: s.history⟩ := by
  have isCurrent : current (reading t start) key s.history = some (false, value) := by
    rw [sameReads] at isValue
    unfold kept at isValue
    split at isValue
    · cases isValue
      assumption
    · cases isValue
  refine ⟨mirrors.turned isPhase, sameGlobals, ?_, ?_, ?_, and_congr ?_ mirrors.delivers⟩
  · intro other notInside
    have apart : key ≠ other := fun same => notInside todo (same ▸ rfl)
    rw [current, if_neg (by simp [apart])]
    exact sameReads other
  · rintro _ _ ⟨⟩
    simp [isDtor, ownStored, isValue, current]
  · intro other value
    rw [current]
    split_ifs
    · nofun
    · exact mirrors.ownDtor other value
  · simp [isDtor, isCurrent]

end Scan

theorem Mirrors.scan (mirrors : Mirrors t start s) {round key : Nat}
    {todo : List (Nat × Nat)} (isPhase : s.phase = .scanning ((round, key) :: todo)) :
    Mirrors t start (scan t s round key todo) := by
  have sameGlobals : (threadKeyGet t key s.keys).2.globals = start.globals :=
    threadKeyGet_globals.trans mirrors.globals
  have sameReads (other : Nat) : reading t (threadKeyGet t key s.keys).2 other =
      kept (current (reading t start) other s.history) :=
    reading_threadKeyGet.trans (mirrors.others other (by simp [isPhase]))
  have isReading : reading t (threadKeyGet t key s.keys).2 key = (threadKeyGet t key s.keys).1 :=
    reading_threadKeyGet
  unfold ThreadExit.scan
  generalize threadKeyGet t key s.keys = got at sameGlobals sameReads isReading
  obtain ⟨value, keys⟩ := got
  cases value with
  | none => exact mirrors.skip isPhase sameGlobals sameReads (.inl isReading)
  | some value =>
    have isDtor : (keys.globals key).dtor = dtorOf start key := by rw [sameGlobals, dtorOf]
    dsimp only
    cases found : dtorOf start key with
    | none =>
      rw [isDtor, found]
      exact mirrors.skip isPhase sameGlobals sameReads (.inr found)
    | some dtor =>
      rw [isDtor, found]
      exact mirrors.call isPhase sameGlobals sameReads isReading found

section Inside

variable {keys : Keys τ Dtor Value} {caller : Nat} {todo : List (Nat × Nat)}
  {hist : List (ExitEvent Dtor Value)}
  (mirrors : Mirrors t start ⟨keys, .inside caller todo, hist⟩)
include mirrors

theorem Mirrors.get (key : Nat) :
    Mirrors t start ⟨(threadKeyGet t key keys).2, .inside caller todo,
      .got caller key (threadKeyGet t key keys).1 :: hist⟩ := by
  obtain ⟨hasDtor, own⟩ := mirrors.own caller todo rfl
  refine ⟨mirrors.done, threadKeyGet_globals.trans mirrors.globals, ?_, ?_, mirrors.ownDtor,
    and_congr ?_ mirrors.delivers⟩
  · intro other notInside
    exact reading_threadKeyGet.trans (mirrors.others other notInside)
  · rintro _ _ ⟨⟩
    rw [reading_threadKeyGet]
    exact ⟨hasDtor, own⟩
  · apply imp_congr_right
    rintro rfl
    change reading t keys caller = _ ↔ _
    dsimp only at own
    split_ifs at own with isStored
    · simp [own, isStored, Function.comp_def]
    · simp_all [Option.isSome_iff_ne_none]

theorem Mirrors.set {key : Nat} (valid : keys.Valid key) (value : Option Value) :
    Mirrors t start ⟨keys.setLocal t key ⟨value, (keys.globals key).generation⟩,
      .inside caller todo, .stored caller key value :: hist⟩ := by
  obtain ⟨hasDtor, own⟩ := mirrors.own caller todo rfl
  have reads (other : Nat) : reading t
      (keys.setLocal t key ⟨value, (keys.globals key).generation⟩) other =
        if key = other then value else reading t keys other := by
    split_ifs with same
    · subst same
      exact reading_setLocal valid value
    · exact reading_congr rfl (setLocal_of_ne (Ne.symm same) _)
  refine ⟨mirrors.done, mirrors.globals, ?_, ?_, ?_, mirrors.delivers⟩
  · intro other notInside
    have apart : caller ≠ other := fun same => notInside todo (same ▸ rfl)
    rw [reads, current]
    split_ifs
    · cases value <;> simp [kept, apart]
    · exact mirrors.others other notInside
  · rintro _ _ ⟨⟩
    refine ⟨hasDtor, ?_⟩
    rw [reads, current, ownStored]
    by_cases same : key = caller
    · simp [same]
    · simpa [same, Ne.symm same] using own
  · intro other own isCurrent
    rw [current] at isCurrent
    split_ifs at isCurrent
    · obtain ⟨_, _, isOwn⟩ := Option.map_eq_some_iff.mp isCurrent
      simp only [Prod.mk.injEq, decide_eq_true_eq] at isOwn
      exact isOwn.1 ▸ hasDtor
    · exact mirrors.ownDtor other own isCurrent

theorem Mirrors.leave :
    Mirrors t start ⟨clearValue t caller keys, .scanning todo, .returned caller :: hist⟩ := by
  obtain ⟨_, own⟩ := mirrors.own caller todo rfl
  refine ⟨mirrors.done, mirrors.globals, ?_, nofun, mirrors.ownDtor, mirrors.delivers⟩
  intro other _
  rw [reading_clearValue]
  change _ = kept (current _ other hist)
  split_ifs with same
  · subst same
    dsimp only at own
    split_ifs at own
    · rw [own]
      cases reading t keys caller <;> rfl
    · rw [own.2]
      rfl
  · exact mirrors.others other (by simp [same])

end Inside

theorem Mirrors.step (mirrors : Mirrors t start s) {label : ExitLabel Value}
    (steps : exitStep t s label = some next) : Mirrors t start next := by
  obtain ⟨keys, phase, hist⟩ := s
  unfold exitStep at steps
  dsimp only at steps
  split at steps
  · cases steps
    exact mirrors.scan rfl
  · cases steps
    exact mirrors.get _
  · next caller todo key value =>
    by_cases valid : keys.Valid key
    · rw [threadKeySet, if_pos valid] at steps
      cases steps
      exact mirrors.set valid value
    · rw [threadKeySet, if_neg valid] at steps
      cases steps
      exact mirrors
  · cases steps
    exact mirrors.leave
  · cases steps

/-- The keys have had the turns of the schedule so far, and the destructors could rely on what they
are promised if and only if they were careful. -/
theorem thread_exit_delivers_iff (reach : (exitSystem t start).Reachable s) :
    turns s.history ++ s.phase.todo = schedule ∧
      (Delivered (reading t start) (dtorOf start) s.history ↔
        Careful (reading t start) s.history) := by
  have mirrors : Mirrors t start s := by
    apply reach.invariant
    · rintro _ rfl
      refine ⟨rfl, rfl, fun key _ => ?_, nofun, fun key value => ?_, Iff.rfl⟩
      · change reading t start key = kept ((reading t start key).map _)
        cases reading t start key <;> rfl
      · change (reading t start key).map _ = _ → _
        cases reading t start key <;> simp
    · intro s label next mirrors _ steps
      exact mirrors.step steps
  exact ⟨mirrors.done, mirrors.delivers⟩

end Runs

/-- The first two keys have destructors, and the first one has the value 5. -/
def oneValue : Keys Unit Unit Nat where
  globals := fun key => ⟨key < 2, if key < 2 then some () else none, 0⟩
  localKeys := fun _ key => ⟨if key = 0 then some 5 else none, 0⟩

/-- A destructor stores a value for the second key, whose destructor stores null for its own key
and reads it. -/
theorem thread_exit_delivers_second : ∃ s, (exitSystem () oneValue).Reachable s ∧ s.history =
        [.returned 1, .got 1 1 none, .stored 1 1 none, .turn 0 1 (some ((), 6)), .returned 0,
          .stored 0 1 (some 6), .turn 0 0 (some ((), 5))] ∧
      Delivered (reading () oneValue) (dtorOf oneValue) s.history := by
  have observed : ∃ s ∈ (exitSystem () oneValue).run (fun _ _ => True)
      ⟨oneValue, .scanning schedule, []⟩
      [.scan, .set 1 (some 6), .leave, .scan, .set 1 none, .get 1, .leave],
      s.history = [.returned 1, .got 1 1 none, .stored 1 1 none, .turn 0 1 (some ((), 6)),
        .returned 0, .stored 0 1 (some 6), .turn 0 0 (some ((), 5))] := by
    decide +kernel
  obtain ⟨s, reach, isHist⟩ := TransitionSystem.exists_reachable observed rfl
  refine ⟨s, reach, isHist, (thread_exit_delivers_iff reach).2.mpr ?_⟩
  rw [isHist]
  simp [Careful, current, ownStored, reading, threadKeyGet, oneValue]

/-- A destructor reads the value that it was called with; and the value that it stores is dropped.
-/
theorem thread_exit_drops_own : (∃ s, (exitSystem () oneValue).Reachable s ∧
      s.history = [.got 0 0 (some 5), .turn 0 0 (some ((), 5))] ∧
      ¬Delivered (reading () oneValue) (dtorOf oneValue) s.history) ∧
    ∃ s hist, (exitSystem () oneValue).Reachable s ∧ s.history = .turn 1 0 none :: hist ∧
      current (reading () oneValue) 0 hist = some (true, 6) ∧
      ¬Delivered (reading () oneValue) (dtorOf oneValue) s.history := by
  constructor
  · have observed : ∃ s ∈ (exitSystem () oneValue).run (fun _ _ => True)
        ⟨oneValue, .scanning schedule, []⟩ [.scan, .get 0],
        s.history = [.got 0 0 (some 5), .turn 0 0 (some ((), 5))] := by
      decide +kernel
    obtain ⟨s, reach, isHist⟩ := TransitionSystem.exists_reachable observed rfl
    refine ⟨s, reach, isHist, ?_⟩
    rw [isHist]
    rintro ⟨readsNull, _⟩
    cases readsNull rfl
  · have observed : ∃ s ∈ (exitSystem () oneValue).run (fun _ _ => True)
        ⟨oneValue, .scanning schedule, []⟩
        ([.scan, .set 0 (some 6), .leave] ++ replicate pthreadKeysMax .scan),
        s.history.head? = some (.turn 1 0 none) ∧
          current (reading () oneValue) 0 s.history.tail = some (true, 6) := by
      decide +kernel
    obtain ⟨⟨keys, phase, hist⟩, reach, isLast, isOwn⟩ :=
      TransitionSystem.exists_reachable observed rfl
    cases hist with
    | nil => cases isLast
    | cons event hist =>
      cases isLast
      change current (reading () oneValue) 0 hist = _ at isOwn
      refine ⟨_, hist, reach, rfl, isOwn, ?_⟩
      rintro ⟨passes, _⟩
      change none = Option.bind (some ()) _ at passes
      rw [isOwn] at passes
      cases passes

end Mlibc.ThreadExit
