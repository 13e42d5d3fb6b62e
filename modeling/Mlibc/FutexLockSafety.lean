import Mlibc.FutexLock

/-! # Safety of the internal futex lock -/

namespace Mlibc.FutexLock

open FutexWord LockCode TransitionSystem

/-- In `lock` and `try_lock` a thread can only have read its own id if it holds the lock. -/
def Known {τ : Type*} (recursive : Bool) (ids : ThreadIds τ) (holds : Prop)
    (t : τ) (depth : Nat) : Pc → Prop
  | .outside _ | .unlockWake | .panicked => True
  | .lock expected | .tryLockLoaded expected =>
    (recursive = true → depth + 1 < 2 ^ 32) ∧ (expected &&& ownerMask = ids.tid t → holds)
  | .lockWait | .tryLock => recursive = true → depth + 1 < 2 ^ 32
  | .lockAcquired | .tryLockAcquired => recursive = true ∧ depth = 0
  | .unlock => 0 < depth
  | .unlockExchange => depth = 0
  | .ensureFailed _ => False

@[simps]
def code {τ : Type*} (recursive : Bool) (ids : ThreadIds τ) : LockCode τ Pc where
  counted := recursive
  nests := recursive
  Critical pc := pc = .lockAcquired ∨ pc = .tryLockAcquired ∨ pc = .unlockExchange
  Waking pc := pc = .unlockWake
  Known := Known recursive ids

variable {τ : Type*} {recursive : Bool} {ids : ThreadIds τ}

section Steps

variable {ghost : LockGhost τ} {t : τ} {mem : LockFields τ} {pc : Pc} {depth : Nat}

theorem acquire_preserves (inv : (code recursive ids).Invariants ids ghost t mem ⟨pc, depth⟩)
    (plain : ¬ recursive = true) (free : mem.state = 0)
    (notWaking : ¬ (code recursive ids).Waking pc) {result : Option Bool} :
    (code recursive ids).Preserves ids ghost t mem
      ({ mem with state := ids.tid t }, ⟨.outside result, depth + 1⟩) := by
  refine inv.acquire free notWaking OwnedWord.owner_tid
    (.inl (Nat.succ_pos _)) (by simp) (fun counted => absurd counted plain) ?_ (fun _ => trivial)
  have depthZero := inv.own.depth_eq_zero (inv.shared.owned.holder_eq_none free)
  exact fun _ => Nat.succ_le_succ depthZero.le

theorem lockIteration_preserves [DecidableEq τ] {expected : UInt32}
    (inv : (code recursive ids).Invariants ids ghost t mem ⟨.lock expected, depth⟩) :
    (code recursive ids).Preserves ids ghost t mem
      (lockIteration recursive ids t mem ⟨.lock expected, depth⟩ expected) := by
  rcases inv.own.known with ⟨room, ownsExpected⟩
  have quiet : (code recursive ids).Quiet (.lock expected) := by simp
  unfold lockIteration
  split_ifs with fresh free isRecursive mine isRecursive waiters unchanged unchanged
  · exact inv.acquire_critical free quiet.2 OwnedWord.owner_tid (.inl rfl) (by simp)
      fun _ => ⟨isRecursive, rfl⟩
  · exact acquire_preserves inv isRecursive free quiet.2
  · exact inv.move quiet (by simp) ⟨room, inv.shared.owned.holder_of_owner⟩
  · exact inv.increment isRecursive isRecursive (ownsExpected mine) quiet.2 (room isRecursive)
      (by simp) trivial
  · exact inv.move quiet (by simp) trivial
  · exact inv.word (inv.shared.owned.sleep (by rwa [unchanged])) quiet (by simp) room
  · exact inv.move quiet (by simp) ⟨room, ids.fresh⟩
  · have owned := inv.shared.owned.setWaiters (by rwa [unchanged])
    rw [unchanged] at owned
    exact inv.word owned quiet (by simp) ⟨room, owned.holder_of_owner⟩
  · exact inv.move quiet (by simp) ⟨room, inv.shared.owned.holder_of_owner⟩

theorem tryLockCheck_preserves {expected : UInt32}
    (inv : (code recursive ids).Invariants ids ghost t mem ⟨.tryLockLoaded expected, depth⟩) :
    (code recursive ids).Preserves ids ghost t mem
      (tryLockCheck recursive ids t mem ⟨.tryLockLoaded expected, depth⟩ expected) := by
  rcases inv.own.known with ⟨room, ownsExpected⟩
  have quiet : (code recursive ids).Quiet (.tryLockLoaded expected) := by simp
  have returns : (code recursive ids).Preserves ids ghost t mem
      (mem, ⟨.outside (some false), depth⟩) := inv.move quiet (by simp) trivial
  unfold tryLockCheck
  split_ifs with fresh free isRecursive mine isRecursive empty
  · exact inv.acquire_critical free quiet.2 OwnedWord.owner_tid (.inr (.inl rfl)) (by simp)
      fun _ => ⟨isRecursive, rfl⟩
  · exact acquire_preserves inv isRecursive free quiet.2
  · exact returns
  · have holds := inv.own.holds.mpr (ownsExpected mine)
    simp only [LockCode.Holds, code_Critical, reduceCtorEq, or_false] at holds
    exact absurd empty (inv.own.recursion_ne_zero isRecursive (ownsExpected mine) holds)
  · exact inv.increment isRecursive isRecursive (ownsExpected mine) quiet.2 (room isRecursive)
      (by simp) trivial
  · exact returns
  · exact returns

theorem setRecursion_preserves (inv : (code recursive ids).Invariants ids ghost t mem ⟨pc, depth⟩)
    (result : Option Bool) (isAcquired : pc = .lockAcquired ∨ pc = .tryLockAcquired) :
    mem.recursion = 0 ∧ (code recursive ids).Preserves ids ghost t mem
        ({ mem with recursion := 1 }, ⟨.outside result, depth + 1⟩) := by
  have known : recursive = true ∧ depth = 0 := by
    rcases isAcquired with rfl | rfl <;> exact inv.own.known
  have holder := inv.own.holds.mp (.inr (isAcquired.imp_right .inl))
  refine inv.first known.1 holder ?_ known.2 (by simp) trivial
  rcases isAcquired with rfl | rfl <;> simp

theorem unlockRecursion_preserves
    (inv : (code recursive ids).Invariants ids ghost t mem ⟨.unlock, depth⟩) :
    (code recursive ids).Preserves ids ghost t mem
      (unlockRecursion recursive mem ⟨.unlock, depth⟩) := by
  have pos : 0 < depth := inv.own.known
  rw [unlockRecursion]
  by_cases isRecursive : recursive = true
  · have counts :=
      inv.own.recursion_ne_zero isRecursive (inv.own.holds.mp (.inl pos)) pos
    rw [if_pos isRecursive, if_neg counts]
    exact inv.unlock isRecursive (by simp) pos (by simp) (fun _ _ => trivial)
      (.inr (.inr rfl)) (by simp) (fun _ => rfl)
  · rw [if_neg isRecursive]
    have single := inv.own.single (by simpa using isRecursive)
    exact inv.last (by simp) pos (fun yes => absurd yes isRecursive)
      (Nat.sub_eq_zero_of_le single) (.inr (.inr rfl)) (by simp) (fun _ => rfl)

theorem exchange_preserves
    (inv : (code recursive ids).Invariants ids ghost t mem ⟨.unlockExchange, depth⟩) :
    (code recursive ids).Preserves ids ghost t mem
      (exchange ids t mem ⟨.unlockExchange, depth⟩) := by
  have holder := inv.own.holds.mp (.inr (.inr (.inr rfl)))
  unfold exchange
  rw [if_neg (not_not.mpr (inv.shared.owned.held t holder))]
  split_ifs with waiters
  · exact inv.release holder (by simp) inv.own.known (by simp) (iff_of_true rfl waiters)
      (fun _ => trivial)
  · exact inv.release holder (by simp) inv.own.known (by simp) (iff_of_false (by simp) waiters)
      (fun _ => trivial)

theorem threadStep_preserves [DecidableEq τ] {label : Label} {own : LockThread Pc}
    (inv : (code recursive ids).Invariants ids ghost t mem own)
    {outcome : LockFields τ × LockThread Pc}
    (room : label = .lock ∨ label = .tryLock → recursive = true → own.depth + 1 < 2 ^ 32)
    (steps : threadStep recursive ids t mem own label = some outcome) :
    (code recursive ids).Preserves ids ghost t mem outcome := by
  rcases own with ⟨pc, depth⟩
  have known := inv.own.known
  unfold threadStep at steps
  dsimp only at steps
  split at steps
  all_goals try cases steps
  · exact inv.move (by simp) (by simp) ⟨room (.inl rfl), ids.fresh⟩
  · exact inv.move (by simp) (by simp) (room (.inr rfl))
  · split_ifs at steps with unheld
    cases steps
    exact inv.move (by simp) (by simp) (Nat.pos_of_ne_zero unheld)
  · exact lockIteration_preserves inv
  · split_ifs at steps with sleeps
    cases steps
    exact inv.move (by simp) (by simp) ⟨known, ids.fresh⟩
  · exact inv.word (inv.shared.owned.leave t) (by simp) (by simp) ⟨known, ids.fresh⟩
  · have first := setRecursion_preserves inv none (.inl rfl)
    rw [lockFinish, if_neg (not_not.mpr first.1)]
    exact first.2
  · exact inv.move (by simp) (by simp) ⟨known, inv.shared.owned.holder_of_owner⟩
  · exact tryLockCheck_preserves inv
  · exact (setRecursion_preserves inv (some true) (.inr rfl)).2
  · exact unlockRecursion_preserves inv
  · exact exchange_preserves inv
  · exact inv.wake (by simp) (by simp) trivial

theorem threadStep_tally [DecidableEq τ] {own : LockThread Pc} {label : Label}
    {outcome : LockFields τ × LockThread Pc}
    (steps : threadStep recursive ids t mem own label = some outcome) :
    outcome.2.depth = tally own outcome.2.pc := by
  rcases own with ⟨pc, depth⟩
  unfold threadStep at steps
  dsimp only at steps
  split at steps
  all_goals try cases steps
  all_goals try rfl
  all_goals try
    split_ifs at steps
    cases steps
    rfl
  all_goals
    simp only [lockIteration, lockFinish, tryLockCheck, unlockRecursion, exchange]
    split_ifs <;> rfl

end Steps

variable [DecidableEq τ]

theorem reachable_invariants {s : ThreadState τ (LockFields τ) (LockThread Pc)}
    (reach : (system recursive ids).interleaving.ReachableVia (NestsBelowLimit recursive) s) :
    ∃ ghost, (code recursive ids).SharedInvariant ids ghost s.shared ∧
      ∀ t, (code recursive ids).LocalInvariant ghost t s.shared (s.threads t) :=
  LockCode.reachable_invariants (fun _ starts => starts) (fun _ _ starts => starts)
    (by simp) (by simp) (fun _ => trivial)
    (fun _ _ _ _ _ inv shallow steps => threadStep_preserves inv shallow steps) reach

/-- While no thread nests 2^32 locks, at most one thread holds the lock, no `__ensure` fails, no
wake-up is lost, and the locks of a thread change only with its calls. -/
theorem futexLock_safe (recursive : Bool) (ids : ThreadIds τ)
    (s : ThreadState τ (LockFields τ) (LockThread Pc))
    (reach : (system recursive ids).interleaving.ReachableVia (NestsBelowLimit recursive) s) :
    (∀ first second, Holds (s.threads first) → Holds (s.threads second) → first = second) ∧
    (∀ t site, (s.threads t).pc ≠ .ensureFailed site) ∧
    (s.shared.asleep.Nonempty → HasWaiters s.shared.state ∨
      ∃ waker, (s.threads waker).pc = .unlockWake) ∧
    ∀ t label outcome, threadStep recursive ids t s.shared (s.threads t) label = some outcome →
      outcome.2.depth = tally (s.threads t) outcome.2.pc := by
  rcases reachable_invariants reach with ⟨ghost, sharedInv, localInv⟩
  refine ⟨holder_unique localInv, ?_, wake_pending sharedInv localInv,
    fun _ _ _ => threadStep_tally⟩
  intro t site failed
  have known := (localInv t).known
  rw [failed] at known
  exact known

omit [DecidableEq τ] in
instance (recursive : Bool) (s : ThreadState τ (LockFields τ) (LockThread Pc)) :
    DecidablePred (NestsBelowLimit recursive s) :=
  fun _ => inferInstanceAs (Decidable (_ → _ → _))

def start : ThreadState Bool (LockFields Bool) (LockThread Pc) :=
  ⟨⟨0, 0, ∅⟩, fun _ => ⟨.outside none, 0⟩⟩

theorem futexLock_safe_contended :
    ∃ s, (system true .two).interleaving.ReachableVia (NestsBelowLimit true)
        s ∧ Holds (s.threads false) ∧ s.shared.asleep.Nonempty ∧
      (∀ other, Holds (s.threads other) → other = false) ∧
      (HasWaiters s.shared.state ∨ ∃ waker, (s.threads waker).pc = .unlockWake) := by
  have contended : ∃ s ∈ (system true .two).interleaving.run
      (NestsBelowLimit true) start [(false, .lock), (false, .run), (false, .run),
        (true, .lock), (true, .run), (true, .run), (true, .run)],
      Holds (s.threads false) ∧ s.shared.asleep.Nonempty :=
    ⟨_, rfl, .inl (by decide), ⟨true, by decide⟩⟩
  obtain ⟨s, reach, holds, sleeps⟩ := exists_reachable contended ⟨rfl, fun _ => rfl⟩
  have safe := futexLock_safe true .two s reach
  exact ⟨s, reach, holds, sleeps,
    fun other otherHolds => safe.1 other false otherHolds holds, safe.2.2.1 sleeps⟩

/-! ### The recursion level wraps -/

def nested (depth : Nat) : ThreadState Bool (LockFields Bool) (LockThread Pc) :=
  ⟨⟨1, UInt32.ofNat depth, ∅⟩, Function.update start.threads false ⟨.outside none, depth⟩⟩

theorem nested_reachable (depth : Nat) :
    (system true .two).interleaving.Reachable (nested (depth + 1)) := by
  have owner : (1 : UInt32) &&& ownerMask = 1 := rfl
  induction depth with
  | zero =>
    have runs : (system true .two).interleaving.run (fun _ _ => True) start
        [(false, .lock), (false, .run), (false, .run)] = some (nested 1) := by
      simp [run, ThreadSystem.interleaving, system, nested, threadStep,
        lockIteration, lockFinish, ThreadIds.two, start]
    exact reachable_of_run runs ⟨rfl, fun _ => rfl⟩
  | succ depth ih =>
    apply ih.run
    show (system true .two).interleaving.run (fun _ _ => True)
      (nested (depth + 1)) [(false, .lock), (false, .run), (false, .run)] =
        some (nested (depth + 1 + 1))
    simp [run, ThreadSystem.interleaving, system, nested, threadStep,
      lockIteration, ThreadIds.two, owner]

/-- A thread that nests 2^32 + 1 locks loses the lock with its first unlock. -/
theorem futexLock_recursion_wraps : (∃ s, (system true .two).interleaving.Reachable s ∧
      Holds (s.threads false) ∧ Holds (s.threads true)) ∧
    ∃ s, (system true .two).interleaving.Reachable s ∧
      (s.threads false).pc = .ensureFailed .unlockOwner := by
  have wrapped := nested_reachable (2 ^ 32)
  have stolen : ∃ s, (system true .two).interleaving.run (fun _ _ => True)
      (nested (2 ^ 32 + 1)) [(false, .unlock), (false, .run), (false, .run), (true, .lock),
        (true, .run), (true, .run)] = some s ∧
      0 < (s.threads false).depth ∧ 0 < (s.threads true).depth := by
    refine ⟨_, rfl, ?_, ?_⟩
    · exact Nat.succ_pos (2 ^ 32 - 1)
    · exact Nat.succ_pos 0
  have failed : ∃ s, (system true .two).interleaving.run (fun _ _ => True)
      (nested (2 ^ 32 + 1)) [(false, .unlock), (false, .run), (false, .run), (true, .lock),
        (true, .run), (true, .run), (false, .unlock), (false, .run), (false, .run)] =
        some s ∧ (s.threads false).pc = .ensureFailed .unlockOwner :=
    ⟨_, rfl, rfl⟩
  rcases stolen with ⟨both, bothRuns, firstHolds, secondHolds⟩
  rcases failed with ⟨last, lastRuns, atPc⟩
  exact ⟨⟨both, wrapped.run bothRuns, .inl firstHolds, .inl secondHolds⟩,
    ⟨last, wrapped.run lastRuns, atPc⟩⟩

end Mlibc.FutexLock
