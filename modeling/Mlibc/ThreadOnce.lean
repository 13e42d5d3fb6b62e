import Mlibc.TransitionSystem

/-!
# One-time initialization

`thread_once` of `options/internal/generic/threads.cpp`; every atomic operation and futex call is
one step.
-/

namespace Mlibc.ThreadOnce

open Option

def onceComplete : UInt32 := 1

def onceLocked : UInt32 := 2

/-- Where a thread is in the code.  Outside it remembers whether a call has returned. -/
inductive Pc where
  | outside (ret : Bool)
  | load
  | loop (expected : UInt32)
  | call
  | running
  | exchange
  | wake
  | wait
  | reload
  | ensureFailed
  deriving DecidableEq

/-- A call or the next operation; a compare-exchange fails for no reason, or a wait returns early.
-/
inductive Label where
  | once
  | run
  | spurious
  | early
  deriving DecidableEq

/-- The word, the kernel's queue, and a record of the function: how often it was started, and
whether it has finished. -/
structure Shared (τ : Type*) where
  done : UInt32
  asleep : Finset τ
  started : Nat
  finished : Bool

section Steps

variable {τ : Type*} [DecidableEq τ] (t : τ) (mem : Shared τ)

def acquire : Shared τ × Pc :=
  if mem.done = 0 then ({ mem with done := onceLocked }, .call)
  else (mem, .loop mem.done)

def futexWait : Shared τ × Pc :=
  if mem.done = onceLocked then
    ({ mem with asleep := insert t mem.asleep }, .wait)
  else (mem, .reload)

def iteration (expected : UInt32) : Shared τ × Pc :=
  if expected &&& onceComplete ≠ 0 then (mem, .outside true)
  else if expected = 0 then acquire mem
  else if expected ≠ onceLocked then (mem, .ensureFailed)
  else futexWait t mem

def threadStep (label : Label) (pc : Pc) : Option (Shared τ × Pc) :=
  match pc, label with
  | .outside _, .once => some (mem, .load)
  | .load, .run => some (mem, .loop mem.done)
  | .loop expected, .run => some (iteration t mem expected)
  | .loop expected, .spurious =>
    if expected = 0 then some (mem, .loop mem.done) else none
  | .call, .run => some ({ mem with started := mem.started + 1 }, .running)
  | .running, .run => some ({ mem with finished := true }, .exchange)
  | .exchange, .run => some ({ mem with done := onceComplete }, .wake)
  | .wake, .run => some ({ mem with asleep := ∅ }, .outside true)
  | .wait, .run => if t ∈ mem.asleep then none else some (mem, .reload)
  | .wait, .early => some ({ mem with asleep := mem.asleep.erase t }, .reload)
  | .reload, .run => some (mem, .loop mem.done)
  | _, _ => none

def system (τ : Type*) [DecidableEq τ] : ThreadSystem τ (Shared τ) Pc Label where
  initialShared mem := mem = ⟨0, ∅, 0, false⟩
  initialLocal _ pc := pc = .outside false
  threadStep t label mem pc := threadStep t mem label pc

end Steps

variable {τ : Type*}

/-- The thread that runs the function, and the thread that has a wake pending. -/
structure Roles (τ : Type*) where
  owner : Option τ
  waker : Option τ

/-- What holds of the word and of the record. -/
structure SharedInvariant (roles : Roles τ) (mem : Shared τ) : Prop where
  word : mem.done = 0 ∧ mem.started = 0 ∨ mem.done = onceLocked ∨
    mem.done = onceComplete ∧ mem.finished = true
  started : mem.started ≤ 1
  ran : mem.finished = true → mem.started = 1
  asleep : mem.asleep.Nonempty → mem.done = onceLocked ∨ roles.waker ≠ none

def Knows (roles : Roles τ) (t : τ) (mem : Shared τ) : Pc → Prop
  | .outside ret => ret = true → mem.finished = true
  | .loop expected => expected = 0 ∨ expected = onceLocked ∨
      expected = onceComplete ∧ mem.finished = true
  | .call => roles.owner = some t ∧ mem.done = onceLocked ∧ mem.started = 0
  | .running => roles.owner = some t ∧ mem.done = onceLocked ∧ mem.started = 1
  | .exchange => roles.owner = some t ∧ mem.done = onceLocked ∧ mem.finished = true
  | .wake => mem.finished = true
  | .load | .wait | .reload => True
  | .ensureFailed => False

/-- What a thread knows, and that it has a wake pending only behind its exchange. -/
structure LocalInvariant (roles : Roles τ) (t : τ) (mem : Shared τ) (pc : Pc) : Prop where
  knows : Knows roles t mem pc
  waker : roles.waker = some t → pc = .wake

section Others

variable {roles : Roles τ} {t : τ} {mem after : Shared τ} {pc : Pc}

theorem LocalInvariant.transfer {roles' : Roles τ} (invariant : LocalInvariant roles t mem pc)
    (owned : mem.done = onceLocked → roles.owner = some t →
      roles'.owner = some t ∧ after.done = onceLocked ∧ after.started = mem.started)
    (finished : mem.finished = true → after.finished = true)
    (waker : roles'.waker = some t → roles.waker = some t) :
    LocalInvariant roles' t after pc := by
  refine ⟨?_, fun isWaker => invariant.waker (waker isWaker)⟩
  have knows := invariant.knows
  cases pc with
  | outside ret => exact fun isReturned => finished (knows isReturned)
  | loop expected => exact knows.imp_right (Or.imp_right (And.imp_right finished))
  | call | running =>
    obtain ⟨isOwner, locked, started⟩ := owned knows.2.1 knows.1
    exact ⟨isOwner, locked, started.trans knows.2.2⟩
  | exchange =>
    obtain ⟨isOwner, locked, -⟩ := owned knows.2.1 knows.1
    exact ⟨isOwner, locked, finished knows.2.2⟩
  | wake => exact finished knows
  | load | wait | reload => trivial
  | ensureFailed => exact knows

end Others

def Preserves (roles : Roles τ) (t : τ) (mem after : Shared τ) (next : Pc) : Prop :=
  ∃ roles', SharedInvariant roles' after ∧ LocalInvariant roles' t after next ∧
    ∀ other, other ≠ t → ∀ pc, LocalInvariant roles other mem pc →
      LocalInvariant roles' other after pc

section Steps

variable {roles : Roles τ} {t : τ} {mem : Shared τ} {next : Pc}

variable (invariant : SharedInvariant roles mem)

include invariant

theorem SharedInvariant.queue {asleep : Finset τ} (notWaker : roles.waker ≠ some t)
    (queued : asleep.Nonempty → mem.done = onceLocked ∨ roles.waker ≠ none)
    (knows : Knows roles t { mem with asleep := asleep } next) :
    Preserves roles t mem { mem with asleep := asleep } next := by
  refine ⟨roles, ⟨invariant.word, invariant.started, invariant.ran, queued⟩,
    ⟨knows, notWaker.elim⟩, ?_⟩
  intro other _ pc others
  exact others.transfer (fun locked isOwner => ⟨isOwner, locked, rfl⟩) id id

theorem SharedInvariant.move (notWaker : roles.waker ≠ some t) (knows : Knows roles t mem next) :
    Preserves roles t mem mem next :=
  invariant.queue notWaker invariant.asleep knows

theorem SharedInvariant.loop : Knows roles t mem (.loop mem.done) := by
  obtain ⟨zero, _⟩ | locked | complete := invariant.word
  · exact .inl zero
  · exact .inr (.inl locked)
  · exact .inr (.inr complete)

section

variable (notWaker : roles.waker ≠ some t)

include notWaker

theorem SharedInvariant.acquire : Preserves roles t mem (acquire mem).1 (acquire mem).2 := by
  rw [ThreadOnce.acquire]
  split_ifs with free
  · have notStarted : mem.started = 0 := by
      obtain ⟨_, notStarted⟩ | locked | ⟨complete, _⟩ := invariant.word
      · exact notStarted
      · rw [free] at locked
        exact absurd locked (by decide)
      · rw [free] at complete
        exact absurd complete (by decide)
    refine ⟨{ roles with owner := some t }, ⟨.inr (.inl rfl), invariant.started,
      invariant.ran, fun _ => .inl rfl⟩, ⟨⟨rfl, rfl, notStarted⟩, notWaker.elim⟩, ?_⟩
    intro other _ pc others
    refine others.transfer (fun locked _ => ?_) id id
    rw [free] at locked
    exact absurd locked (by decide)
  · exact invariant.move notWaker invariant.loop

theorem SharedInvariant.iteration [DecidableEq τ] {expected : UInt32}
    (knows : Knows roles t mem (.loop expected)) :
    Preserves roles t mem (iteration t mem expected).1 (iteration t mem expected).2 := by
  rw [ThreadOnce.iteration]
  obtain rfl | rfl | ⟨rfl, finished⟩ := knows
  · exact invariant.acquire notWaker
  · unfold futexWait
    rw [if_neg (by decide), if_neg (by decide), if_neg (by decide)]
    split_ifs with locked
    · exact invariant.queue notWaker (fun _ => .inl locked) trivial
    · exact invariant.move notWaker trivial
  · exact invariant.move notWaker (fun _ => finished)

theorem SharedInvariant.call (knows : Knows roles t mem .call) :
    Preserves roles t mem { mem with started := mem.started + 1 } .running := by
  obtain ⟨owner, locked, notStarted⟩ := knows
  have once : mem.started + 1 = 1 := congrArg (· + 1) notStarted
  refine ⟨roles, ⟨.inr (.inl locked), once.le, fun _ => once, invariant.asleep⟩,
    ⟨⟨owner, locked, once⟩, notWaker.elim⟩, ?_⟩
  intro other apart pc others
  refine others.transfer (fun _ otherOwner => ?_) id id
  rw [owner, some.injEq] at otherOwner
  exact absurd otherOwner.symm apart

theorem SharedInvariant.running (knows : Knows roles t mem .running) :
    Preserves roles t mem { mem with finished := true } .exchange := by
  obtain ⟨owner, locked, once⟩ := knows
  refine ⟨roles, ⟨.inr (.inl locked), invariant.started, fun _ => once, invariant.asleep⟩,
    ⟨⟨owner, locked, rfl⟩, notWaker.elim⟩, ?_⟩
  intro other _ pc others
  exact others.transfer (fun locked isOwner => ⟨isOwner, locked, rfl⟩) (fun _ => rfl) id

end

theorem SharedInvariant.exchange (knows : Knows roles t mem .exchange) :
    Preserves roles t mem { mem with done := onceComplete } .wake := by
  obtain ⟨owner, _, finished⟩ := knows
  refine ⟨{ roles with waker := some t }, ⟨.inr (.inr ⟨rfl, finished⟩),
    invariant.started, invariant.ran, fun _ => .inr (some_ne_none t)⟩,
    ⟨finished, fun _ => rfl⟩, ?_⟩
  intro other apart pc others
  refine others.transfer (fun _ otherOwner => ?_) id (fun isWaker => ?_)
  · rw [owner, some.injEq] at otherOwner
    exact absurd otherOwner.symm apart
  · rw [some.injEq] at isWaker
    exact absurd isWaker.symm apart

theorem SharedInvariant.wake (finished : mem.finished = true) :
    Preserves roles t mem { mem with asleep := ∅ } (.outside true) := by
  refine ⟨{ roles with waker := none }, ⟨invariant.word, invariant.started, invariant.ran,
    fun ne => absurd ne Finset.not_nonempty_empty⟩,
    ⟨fun _ => finished, nofun⟩, ?_⟩
  intro other _ pc others
  exact others.transfer (fun locked isOwner => ⟨isOwner, locked, rfl⟩) id nofun

theorem SharedInvariant.step [DecidableEq τ] {after : Shared τ} {label : Label} {pc : Pc}
    (own : LocalInvariant roles t mem pc)
    (steps : threadStep t mem label pc = some (after, next)) :
    Preserves roles t mem after next := by
  have notWaker (other : pc ≠ .wake) : roles.waker ≠ some t :=
    fun isWaker => other (own.waker isWaker)
  have knows := own.knows
  unfold threadStep at steps
  split at steps
  all_goals try cases steps
  · exact invariant.move (notWaker (by simp)) trivial
  · exact invariant.move (notWaker (by simp)) invariant.loop
  · have preserves := invariant.iteration (notWaker (by simp)) knows
    rw [some.inj steps] at preserves
    exact preserves
  · split_ifs at steps
    cases steps
    exact invariant.move (notWaker (by simp)) invariant.loop
  · exact invariant.call (notWaker (by simp)) knows
  · exact invariant.running (notWaker (by simp)) knows
  · exact invariant.exchange knows
  · exact invariant.wake knows
  · split_ifs at steps
    cases steps
    exact invariant.move (notWaker (by simp)) trivial
  · refine invariant.queue (notWaker (by simp)) ?_ trivial
    intro ne
    exact invariant.asleep (ne.mono (Finset.erase_subset t mem.asleep))
  · exact invariant.move (notWaker (by simp)) invariant.loop

end Steps

theorem roles_of_reachable [DecidableEq τ] {s : ThreadState τ (Shared τ) Pc}
    (reach : (system τ).interleaving.Reachable s) :
    ∃ roles, SharedInvariant roles s.shared ∧
      ∀ t, LocalInvariant roles t s.shared (s.threads t) := by
  apply ThreadSystem.reachable_invariant SharedInvariant LocalInvariant _ _ reach
  · rintro _ rfl
    refine ⟨⟨none, none⟩, ⟨.inl ⟨rfl, rfl⟩, Nat.zero_le 1, nofun, ?_⟩, ?_⟩
    · intro ne
      exact absurd ne Finset.not_nonempty_empty
    · rintro t _ rfl
      exact ⟨nofun, nofun⟩
  · intro roles s t label mem own invariant locals _ steps
    exact invariant.step locals steps

/-- The function was started at most once, a call has returned only if it has finished, no
`__ensure` has failed, and no wake-up is lost. -/
theorem threadOnce_runs_once [DecidableEq τ] {s : ThreadState τ (Shared τ) Pc}
    (reach : (system τ).interleaving.Reachable s) :
    s.shared.started ≤ 1 ∧
    (∀ t, s.threads t = .outside true → s.shared.started = 1 ∧ s.shared.finished = true) ∧
    (∀ t, s.threads t ≠ .ensureFailed) ∧
    ∀ t ∈ s.shared.asleep, s.shared.done = onceComplete → ∃ waker, s.threads waker = .wake := by
  obtain ⟨roles, invariant, locals⟩ := roles_of_reachable reach
  refine ⟨invariant.started, ?_, ?_, ?_⟩
  · intro t ret
    have knows := (locals t).knows
    rw [ret] at knows
    exact ⟨invariant.ran (knows rfl), knows rfl⟩
  · intro t failed
    have knows := (locals t).knows
    rw [failed] at knows
    exact knows
  · intro t asleep complete
    obtain locked | waking := invariant.asleep ⟨t, asleep⟩
    · rw [complete] at locked
      exact absurd locked (by decide)
    · obtain ⟨waker, isWaker⟩ := ne_none_iff_exists'.mp waking
      exact ⟨waker, (locals waker).waker isWaker⟩

theorem threadOnce_runs_once_asleep :
    ∃ s : ThreadState Bool (Shared Bool) Pc, (system Bool).interleaving.Reachable s ∧
      true ∈ s.shared.asleep ∧ s.shared.done = onceComplete ∧
      s.shared.started ≤ 1 ∧ ∃ waker, s.threads waker = .wake := by
  have observed : ∃ s ∈ (system Bool).interleaving.run (fun _ _ => True)
      ⟨⟨0, ∅, 0, false⟩, fun _ => .outside false⟩
      [(false, .once), (false, .run), (false, .spurious), (false, .run), (true, .once),
        (true, .run), (false, .run), (true, .run), (false, .run), (false, .run)],
      true ∈ s.shared.asleep ∧ s.shared.done = onceComplete := by
    decide +kernel
  obtain ⟨s, reach, asleep, complete⟩ :=
    TransitionSystem.exists_reachable observed ⟨rfl, fun _ => rfl⟩
  obtain ⟨started, _, _, woken⟩ := threadOnce_runs_once reach
  exact ⟨s, reach, asleep, complete, started, woken true asleep complete⟩

end Mlibc.ThreadOnce
