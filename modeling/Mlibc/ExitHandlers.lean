import Mathlib.Data.Fintype.Basic
import Mathlib.Data.Fintype.Option
import Mathlib.Tactic.Common

/-!
# Exit handlers

The exit queue of `options/lsb/generic/dso_exit.cpp`, whose storage may move while handlers run.
-/

namespace Mlibc.ExitHandlers

open List

/-- The function comes with its argument, and is null once the handler has been called. -/
structure ExitHandler (F D : Type*) where
  function : Option F
  dsoHandle : Option D

/-- The loop of `__mlibc_do_finalize`, or that of `__cxa_finalize`. -/
inductive Pass (D : Type*) where
  | doFinalize
  | cxaFinalize (dso : Option D)

/-- The test of the handle in the loop. -/
def Pass.selects {D : Type*} [DecidableEq D] (handle : Option D) : Pass D → Bool
  | .doFinalize => handle.isNone
  | .cxaFinalize none => true
  | .cxaFinalize (some dso) => handle = some dso

/-- What a handler, or a fini function, does with the queue.  A registration may move the storage.
-/
inductive Action (F D : Type*) where
  | cxaAtexit (function : F) (handle : Option D) (moves : Bool)
  | cxaFinalize (dso : Option D)

/-- A call of a handler, with the queue as the loop found it. -/
structure Call (F D : Type*) where
  pass : Pass D
  index : Nat
  handle : Option D
  queue : List (ExitHandler F D)

/-- `moved` counts the moves of the storage; `stale` tells whether a loop wrote to the old one. -/
structure State (F D : Type*) where
  queue : List (ExitHandler F D)
  moved : Nat
  stale : Bool
  calls : List (Call F D)

section Model

variable {F D : Type*} [DecidableEq D]
  (behaviour : List (Call F D) → List (Call F D) → F → List (Action F D))

def cxaAtexit (function : F) (handle : Option D) (moves : Bool) (s : State F D) : State F D :=
  { s with
    queue := s.queue ++ [⟨some function, handle⟩]
    moved := if moves then s.moved + 1 else s.moved }

/-- `handler.function = nullptr`, for a reference into the storage as it was. -/
def State.clear (s : State F D) (moved index : Nat) : State F D :=
  if s.moved = moved then
    { s with queue := s.queue.modify index fun handler => { handler with function := none }
    }
  else { s with stale := true }

/-- The loop over the queue, while the handlers of `running` are being called. -/
def walk (running : List (Call F D))
    (call : List (Call F D) → F → State F D → Option (State F D)) (pass : Pass D) :
    Nat → State F D → Option (State F D)
  | 0, s => some s
  | i + 1, s =>
    match s.queue[i]? with
    | some ⟨some function, handle⟩ =>
      if pass.selects handle then do
        let current : Call F D := ⟨pass, i, handle, s.queue⟩
        let after ← call (current :: running) function { s with calls := s.calls ++ [current] }
        walk running call pass i (after.clear s.moved i)
      else walk running call pass i s
    | _ => walk running call pass i s

def perform (running : List (Call F D))
    (call : List (Call F D) → F → State F D → Option (State F D)) (s : State F D) :
    Action F D → Option (State F D)
  | .cxaAtexit function handle moves => some (cxaAtexit function handle moves s)
  | .cxaFinalize dso => walk running call (.cxaFinalize dso) s.queue.length s

/-- A call of a handler, whose behaviour depends on the calls that are running and on all calls so
far. -/
def calling : Nat → List (Call F D) → F → State F D → Option (State F D)
  | 0, _, _, _ => none
  | depth + 1, running, function, s =>
    (behaviour running s.calls function).foldlM (perform running (calling depth)) s

/-- `__mlibc_do_finalize`, with the fini functions that it calls, and `__cxa_finalize(nullptr)`. -/
def exit (fini : List (Action F D)) (depth : Nat) (start : State F D) : Option (State F D) := do
  let call := calling behaviour depth
  let finalized ← walk [] call .doFinalize start.queue.length start
  let s ← fini.foldlM (perform [] call) finalized
  walk [] call (.cxaFinalize none) s.queue.length s

def registered (handlers : List (F × Option D)) : State F D :=
  ⟨handlers.map fun handler => ⟨some handler.1, handler.2⟩, 0, false, []⟩

end Model

section Runs

variable {F D : Type*} [DecidableEq D] {pass : Pass D} {s after : State F D}
  {running : List (Call F D)}

def Passed (pass : Pass D) (i : Nat) (queue : List (ExitHandler F D)) : Prop :=
  ∀ j handler, i ≤ j → queue[j]? = some handler → pass.selects handler.dsoHandle →
    handler.function = none

/-- Every handler was called once, each after the later ones of its pass. -/
structure Completes (final : State F D) : Prop where
  once : ∀ i < final.queue.length, (final.calls.map Call.index).count i = 1
  ordered : ∀ call ∈ final.calls, Passed call.pass (call.index + 1) call.queue
  storage : final.stale = false

/-- The loop has no handler left to call. -/
def Exhausted (pass : Pass D) (i : Nat) (queue : List (ExitHandler F D)) : Prop :=
  ∀ j handler, j < i → queue[j]? = some handler → pass.selects handler.dsoHandle →
    handler.function = none

/-- A handler that is registered during the call is too late for the loop: it has others to call,
or it is the last one. -/
def Call.Leaves (call : Call F D) : Prop :=
  call.pass = .cxaFinalize none ∨ ¬Exhausted call.pass call.index call.queue

/-- A handler may register where the storage stays and no loop would have to call the new handler,
and may finalize an object none of whose handlers is running. -/
def Action.Admitted (running : List (Call F D)) : Action F D → Prop
  | .cxaAtexit _ handle moves =>
    (moves = true → running = []) ∧ ∀ call ∈ running, call.pass.selects handle → ¬call.Leaves
  | .cxaFinalize dso => ∀ call ∈ running, ¬(Pass.cxaFinalize dso).selects call.handle

/-- The handlers without a function are those that were called, in the order of the loops. -/
structure Sound (running : List (Call F D)) (s : State F D) : Prop where
  indices : ∀ i, i ∈ s.calls.map Call.index ↔
    (∃ handle, s.queue[i]? = some ⟨none, handle⟩) ∨ i ∈ running.map Call.index
  nodup : (s.calls.map Call.index).Nodup
  ordered : ∀ call ∈ s.calls, Passed call.pass (call.index + 1) call.queue
  storage : s.stale = false
  running : ∀ call ∈ running, ∃ function, s.queue[call.index]? = some ⟨some function, call.handle⟩

/-- What the calls of handlers leave as it was, while others are running. -/
structure Later (running : List (Call F D)) (s after : State F D) : Prop where
  moved : running = [] ∨ after.moved = s.moved
  kept : ∀ (j : Nat) (handler : ExitHandler F D), s.queue[j]? = some handler → ∃ function,
    after.queue[j]? = some ⟨function, handler.dsoHandle⟩ ∧
      (handler.function = none → function = none)
  new : ∀ (j : Nat) (handler : ExitHandler F D), s.queue.length ≤ j →
    after.queue[j]? = some handler → ∀ call ∈ running,
      call.pass.selects handler.dsoHandle → ¬call.Leaves

theorem Later.refl (running : List (Call F D)) (s : State F D) : Later running s s where
  moved := .inr rfl
  kept _ handler isHdlr := ⟨handler.function, isHdlr, id⟩
  new j handler beyond isHdlr := by
    rw [getElem?_eq_none beyond] at isHdlr
    cases isHdlr

theorem Later.trans {middle : State F D} (first : Later running s middle)
    (second : Later running middle after) : Later running s after where
  moved := first.moved.elim .inl fun same => second.moved.imp_right fun also => also.trans same
  kept j handler isHdlr := by
    obtain ⟨_, isMiddle, cleared⟩ := first.kept j handler isHdlr
    obtain ⟨function, isAfter, clearedToo⟩ := second.kept j _ isMiddle
    exact ⟨function, isAfter, fun isNone => clearedToo (cleared isNone)⟩
  new j handler beyond isHdlr := by
    by_cases inside : j < middle.queue.length
    · have isMiddle := getElem?_eq_getElem inside
      obtain ⟨_, isAfter, _⟩ := second.kept j _ isMiddle
      cases isHdlr.symm.trans isAfter
      exact first.new j middle.queue[j] beyond isMiddle
    · exact second.new j handler (not_lt.mp inside) isHdlr

theorem Later.length_le (later : Later running s after) : s.queue.length ≤ after.queue.length := by
  by_contra shorter
  obtain ⟨_, isAfter, _⟩ :=
    later.kept after.queue.length _ (getElem?_eq_getElem (not_le.mp shorter))
  rw [getElem?_eq_none le_rfl] at isAfter
  cases isAfter

theorem Later.exhausted (later : Later running s after) {i : Nat} (inside : i ≤ s.queue.length)
    (exhausted : Exhausted pass i s.queue) : Exhausted pass i after.queue := by
  intro j handler below isHdlr selected
  have isEarlier := getElem?_eq_getElem (below.trans_le inside)
  obtain ⟨_, isAfter, cleared⟩ := later.kept j _ isEarlier
  cases isHdlr.symm.trans isAfter
  exact cleared (exhausted j _ below isEarlier selected)

theorem Later.passed {current : Call F D} (later : Later (current :: running) s after)
    (leaves : current.Leaves) {i : Nat} (passed : Passed current.pass i s.queue) :
    Passed current.pass i after.queue := by
  intro j handler least isHdlr selected
  by_cases inside : j < s.queue.length
  · have isEarlier := getElem?_eq_getElem inside
    obtain ⟨_, isAfter, cleared⟩ := later.kept j _ isEarlier
    cases isHdlr.symm.trans isAfter
    exact cleared (passed j _ least isEarlier selected)
  · exact absurd leaves
      (later.new j handler (not_lt.mp inside) isHdlr current mem_cons_self selected)

theorem Sound.cxaAtexit (sound : Sound running s) (function : F) (handle : Option D)
    (moves : Bool) : Sound running (cxaAtexit function handle moves s) := by
  refine ⟨fun i => (sound.indices i).trans ?_, sound.nodup, sound.ordered, sound.storage,
    fun call mem => ?_⟩
  · simp only [ExitHandlers.cxaAtexit]
    grind
  · obtain ⟨function, isHdlr⟩ := sound.running call mem
    have inside := (List.getElem?_eq_some_iff.mp isHdlr).1
    exact ⟨function, (getElem?_append_left inside).trans isHdlr⟩

theorem later_cxaAtexit {function : F} {handle : Option D} {moves : Bool}
    (admitted : (Action.cxaAtexit function handle moves).Admitted running) :
    Later running s (cxaAtexit function handle moves s) := by
  obtain ⟨unmoved, admits⟩ := admitted
  refine ⟨?_, fun j handler isHdlr => ?_, fun j handler beyond isHdlr => ?_⟩
  · cases moves with
    | true => exact .inl (unmoved rfl)
    | false => exact .inr rfl
  · have inside := (List.getElem?_eq_some_iff.mp isHdlr).1
    exact ⟨handler.function, (getElem?_append_left inside).trans isHdlr, id⟩
  · rw [cxaAtexit, getElem?_append_right beyond] at isHdlr
    obtain ⟨_, rfl⟩ := List.getElem?_eq_some_iff.mp isHdlr
    rw [getElem_singleton]
    exact admits

section

variable {i : Nat} {function : F} {handle : Option D}
  (isHdlr : s.queue[i]? = some ⟨some function, handle⟩) (selected : pass.selects handle)
  (apart : ∀ outer ∈ running, ¬pass.selects outer.handle)

include isHdlr selected apart

theorem Sound.called (sound : Sound running s) (passed : Passed pass (i + 1) s.queue) :
    Sound (⟨pass, i, handle, s.queue⟩ :: running)
      { s with calls := s.calls ++ [⟨pass, i, handle, s.queue⟩] } := by
  have uncalled : i ∉ s.calls.map Call.index := by
    rw [sound.indices, isHdlr]
    rintro (⟨_, isNone⟩ | isRunning)
    · cases isNone
    obtain ⟨outer, mem, rfl⟩ := mem_map.mp isRunning
    obtain ⟨_, isOuter⟩ := sound.running outer mem
    cases isHdlr.symm.trans isOuter
    exact apart outer mem selected
  refine ⟨fun j => ?_, ?_, ?_, sound.storage, ?_⟩
  · simp only [map_append, mem_append, sound.indices, map_cons, mem_cons, map_nil, not_mem_nil,
      or_false]
    tauto
  · rw [map_append, nodup_append]
    exact ⟨sound.nodup, nodup_singleton _, by grind⟩
  · intro call mem
    rcases mem_append.mp mem with old | isLast
    · exact sound.ordered call old
    · cases mem_singleton.mp isLast
      exact passed
  · exact forall_mem_cons.mpr ⟨⟨function, isHdlr⟩, sound.running⟩

theorem Sound.returned {queue : List (ExitHandler F D)} {moved : Nat}
    (sound : Sound (⟨pass, i, handle, queue⟩ :: running) s) (same : s.moved = moved) :
    Sound running (s.clear moved i) := by
  rw [State.clear, if_pos same]
  refine ⟨fun j => ?_, sound.nodup, sound.ordered, sound.storage, fun outer mem => ?_⟩
  · rw [sound.indices, map_cons, mem_cons]
    by_cases isLast : i = j
    · subst isLast
      simp [isHdlr]
    · simp [isLast, Ne.symm isLast]
  · obtain ⟨function, isOuter⟩ := sound.running outer (mem_cons_of_mem _ mem)
    have other : i ≠ outer.index := by
      rintro rfl
      cases isHdlr.symm.trans isOuter
      exact apart outer mem selected
    exact ⟨function, (getElem?_modify_ne _ _ other).trans isOuter⟩

end

theorem Later.clear {current : Call F D} (later : Later (current :: running) s after) (i : Nat) :
    Later running s (after.clear s.moved i) := by
  obtain impossible | same := later.moved
  · cases impossible
  rw [State.clear, if_pos same]
  refine ⟨.inr same, fun j handler isHdlr => ?_, fun j handler beyond isHdlr outer mem => ?_⟩
  · obtain ⟨function, isAfter, cleared⟩ := later.kept j handler isHdlr
    simp only [getElem?_modify, isAfter]
    split_ifs
    · exact ⟨none, rfl, fun _ => rfl⟩
    · exact ⟨function, rfl, cleared⟩
  · rw [getElem?_modify] at isHdlr
    obtain ⟨old, isOld, rfl⟩ := Option.map_eq_some_iff.mp isHdlr
    have new := later.new j old beyond isOld outer (mem_cons_of_mem _ mem)
    split_ifs at new ⊢ <;> exact new

/-- The loop has called what it selects from the index on, or has no handler left to call. -/
def Continues (pass : Pass D) (i : Nat) (queue : List (ExitHandler F D)) : Prop :=
  Passed pass i queue ∨ pass ≠ .cxaFinalize none ∧ Exhausted pass i queue

theorem Continues.skip {i : Nat} {queue : List (ExitHandler F D)}
    (continues : Continues pass (i + 1) queue)
    (uncalled : ∀ handler, queue[i]? = some handler → pass.selects handler.dsoHandle →
      handler.function = none) : Continues pass i queue := by
  refine continues.imp (fun passed j handler least isHdlr selected => ?_)
    (And.imp_right fun exhausted j handler below => exhausted j handler (by omega))
  rcases Nat.eq_or_lt_of_le least with rfl | later
  · exact uncalled handler isHdlr selected
  · exact passed j handler later isHdlr selected

theorem Later.continues {i : Nat} {handle : Option D}
    (later : Later (⟨pass, i, handle, s.queue⟩ :: running) s after) (inside : i ≤ s.queue.length)
    (passed : Passed pass (i + 1) s.queue) :
    Continues pass i (after.clear s.moved i).queue := by
  by_cases leaves : Call.Leaves ⟨pass, i, handle, s.queue⟩
  · have isPassed := later.passed leaves passed
    rw [State.clear, if_pos (later.moved.resolve_left (cons_ne_nil _ _))]
    left
    grind [Passed]
  · obtain ⟨notLast, exhausted⟩ := not_or.mp leaves
    exact .inr ⟨notLast, (later.clear i).exhausted inside (not_not.mp exhausted)⟩

section

variable {call : List (Call F D) → F → State F D → Option (State F D)}
  (returns : ∀ current function s, Sound (current :: running) s →
    (∀ outer ∈ running, outer.handle ≠ current.handle) →
    ∃ after, call (current :: running) function s = some after ∧
      Sound (current :: running) after ∧ Later (current :: running) s after)

include returns

theorem walk_sound (apart : ∀ outer ∈ running, ¬pass.selects outer.handle) (i : Nat)
    (inside : i ≤ s.queue.length) (sound : Sound running s)
    (continues : Continues pass i s.queue) :
    ∃ after, walk running call pass i s = some after ∧ Sound running after ∧
      Later running s after ∧ (pass = .cxaFinalize none → Passed pass 0 after.queue) := by
  induction i generalizing s with
  | zero =>
    exact ⟨s, rfl, sound, .refl running s, fun isLast =>
      continues.resolve_right fun exhausted => exhausted.1 isLast⟩
  | succ i ih =>
    have below := Nat.le_of_succ_le inside
    unfold walk
    split
    · next function handle isHdlr =>
      split_ifs with selected
      · have passed : Passed pass (i + 1) s.queue := by
          refine continues.resolve_right fun exhausted => ?_
          cases exhausted.2 i _ (Nat.lt_succ_self i) isHdlr selected
        obtain ⟨after, calls, isSound, later⟩ := returns _ function _
          (sound.called isHdlr selected apart passed) fun outer mem same =>
            apart outer mem (same ▸ selected)
        have same : after.moved = s.moved := later.moved.resolve_left (cons_ne_nil _ _)
        obtain ⟨_, isAfter⟩ := isSound.running _ mem_cons_self
        have later : Later _ s after := { later with }
        have clears := later.clear i
        obtain ⟨final, walks, finalSound, finalLater, isPassed⟩ :=
          ih (below.trans clears.length_le) (isSound.returned isAfter selected apart same)
            (later.continues below passed)
        refine ⟨final, ?_, finalSound, clears.trans finalLater, isPassed⟩
        simp only [calls]
        exact walks
      · refine ih below sound (continues.skip fun handler isAlso isSelected => ?_)
        cases isHdlr.symm.trans isAlso
        exact absurd isSelected selected
    · next isNone =>
      refine ih below sound (continues.skip fun handler isHdlr _ => ?_)
      cases isFunction : handler.function with
      | none => rfl
      | some function =>
        exact absurd (by rw [isHdlr, ← isFunction]) (isNone function handler.dsoHandle)

theorem walk_all (pass : Pass D) (apart : ∀ outer ∈ running, ¬pass.selects outer.handle)
    (sound : Sound running s) :
    ∃ after, walk running call pass s.queue.length s = some after ∧ Sound running after ∧
      Later running s after ∧ (pass = .cxaFinalize none → Passed pass 0 after.queue) := by
  refine walk_sound returns apart _ le_rfl sound (.inl fun j handler least isHdlr => ?_)
  rw [getElem?_eq_none least] at isHdlr
  cases isHdlr

theorem perform_sound (actions : List (Action F D))
    (admitted : ∀ action ∈ actions, action.Admitted running) (sound : Sound running s) :
    ∃ after, actions.foldlM (perform running call) s = some after ∧ Sound running after ∧
      Later running s after := by
  induction actions generalizing s with
  | nil => exact ⟨s, rfl, sound, .refl running s⟩
  | cons action actions ih =>
    obtain ⟨isAdmitted, admitted⟩ := forall_mem_cons.mp admitted
    obtain ⟨next, performs, isSound, later⟩ : ∃ next, perform running call s action = some next ∧
        Sound running next ∧ Later running s next := by
      cases action with
      | cxaAtexit function handle moves =>
        exact ⟨_, rfl, sound.cxaAtexit function handle moves, later_cxaAtexit isAdmitted⟩
      | cxaFinalize dso =>
        obtain ⟨next, walks, isSound, later, _⟩ :=
          walk_all returns (.cxaFinalize dso) isAdmitted sound
        exact ⟨next, walks, isSound, later⟩
    obtain ⟨after, goesOn, afterSound, afterLater⟩ := ih admitted isSound
    refine ⟨after, ?_, afterSound, later.trans afterLater⟩
    rw [foldlM_cons, performs]
    exact goesOn

end

variable [Fintype D] {behaviour : List (Call F D) → List (Call F D) → F → List (Action F D)}
  (orderly : ∀ running calls function, ∀ action ∈ behaviour running calls function,
    action.Admitted running)

include orderly

theorem calling_sound (depth : Nat) (running : List (Call F D))
    (nodup : (running.map Call.handle).Nodup)
    (enough : Fintype.card (Option D) < running.length + depth) (function : F) (s : State F D)
    (sound : Sound running s) :
    ∃ after, calling behaviour depth running function s = some after ∧ Sound running after ∧
      Later running s after := by
  induction depth generalizing running function s with
  | zero =>
    have bound := nodup.length_le_card
    rw [length_map] at bound
    omega
  | succ depth ih =>
    rw [calling]
    apply perform_sound _ _ (orderly running s.calls function) sound
    intro current function s sound apart
    apply ih _ _ _ _ _ sound
    · rw [map_cons, nodup_cons]
      refine ⟨fun mem => ?_, nodup⟩
      obtain ⟨outer, isOuter, same⟩ := mem_map.mp mem
      exact apart outer isOuter same
    · rw [length_cons]
      omega

end Runs

/-- The handler 0 finalizes the object and registers a handler of it where this is admitted. -/
def finalizesObject (running _ : List (Call Nat Unit)) : Nat → List (Action Nat Unit)
  | 0 =>
    if ∀ call ∈ running, call.handle ≠ some () ∧ ¬call.pass.selects (some ()) then
      [.cxaFinalize (some ()), .cxaAtexit 3 (some ()) false]
    else []
  | _ => []

def registersNext (moves : Bool) (_ _ : List (Call Nat Unit)) : Nat → List (Action Nat Unit)
  | 0 => [.cxaAtexit 1 none moves]
  | _ => []

end Mlibc.ExitHandlers
