import Mlibc.ThreadMutex

/-! # Safety of thread mutexes -/

namespace Mlibc.ThreadMutex

open FutexWord LockCode

/-- What a thread knows at its program counter.  It can only have read its own
id from the word if it holds the mutex. -/
def Known {τ : Type*} (kind : Kind) (ids : ThreadIds τ) (holds : Prop) (t : τ)
    (depth : Nat) : Pc → Prop
  | .outside _ | .unlockWake => True
  | .timedlock _ expected | .trylockLoaded expected =>
    (kind = .recursive → depth + 1 < 2 ^ 32) ∧ (expected &&& ownerMask = ids.tid t → holds)
  | .timedlockTimeout expected =>
    (kind = .recursive → depth + 1 < 2 ^ 32) ∧ HasWaiters expected
  | .timedlockWait _ | .trylock => kind = .recursive → depth + 1 < 2 ^ 32
  | .timedlockAcquired | .trylockAcquired => depth = 0
  | .unlock | .unlockLevel => 0 < depth
  | .unlockExchange => depth = 0
  | .ensureFailed _ => False

@[simps]
def code {τ : Type*} (kind : Kind) (ids : ThreadIds τ) : LockCode τ Pc where
  counted := true
  nests := kind = .recursive
  Critical pc := pc = .timedlockAcquired ∨ pc = .trylockAcquired ∨ pc = .unlockExchange
  Waking pc := pc = .unlockWake
  Known := Known kind ids

variable {τ : Type*} {kind : Kind} {ids : ThreadIds τ}

section Steps

variable {ghost : LockGhost τ} {t : τ} {mem : LockFields τ} {pc : Pc} {depth : Nat}
  {expected : UInt32}

section

variable (inv : (code kind ids).Invariants ids ghost t mem ⟨pc, depth⟩)
include inv

theorem futexWait_preserves [DecidableEq τ] {timed : Bool} (quiet : (code kind ids).Quiet pc)
    (room : kind = .recursive → depth + 1 < 2 ^ 32) (waiters : HasWaiters expected) :
    (code kind ids).Preserves ids ghost t mem (futexWait t mem ⟨pc, depth⟩ timed expected) := by
  unfold futexWait
  split_ifs with unchanged
  · exact inv.word (inv.shared.owned.sleep (by rwa [unchanged])) quiet (by simp) room
  · exact inv.move quiet (by simp) ⟨room, ids.fresh⟩

theorem increment_preserves (isRecursive : kind = .recursive) (holder : ghost.holder = some t)
    (notWaking : ¬ (code kind ids).Waking pc) (room : kind = .recursive → depth + 1 < 2 ^ 32) :
    (code kind ids).Preserves ids ghost t mem
      ({ mem with recursion := mem.recursion + 1 }, ⟨.outside none, depth + 1⟩) :=
  inv.increment (by simp [isRecursive]) rfl holder notWaking (room isRecursive) (by simp) trivial

theorem setRecursion_preserves {site : Ensure}
    (isAcquired : pc = .timedlockAcquired ∨ pc = .trylockAcquired) :
    (code kind ids).Preserves ids ghost t mem (setRecursion mem ⟨pc, depth⟩ site) := by
  have depthZero : depth = 0 := by
    rcases isAcquired with rfl | rfl <;> exact inv.own.known
  have holder := inv.own.holds.mp (.inr (isAcquired.imp_right .inl))
  have notWaking : ¬ (code kind ids).Waking pc := by
    rcases isAcquired with rfl | rfl <;> simp
  have first : mem.recursion = 0 ∧ (code kind ids).Preserves ids ghost t mem
        ({ mem with recursion := 1 }, ⟨.outside none, depth + 1⟩) :=
    inv.first rfl holder notWaking depthZero (by simp) trivial
  rw [setRecursion, if_neg (not_not.mpr first.1)]
  exact first.2

end

theorem timedlockIteration_preserves [DecidableEq τ] {timed : Bool}
    (inv : (code kind ids).Invariants ids ghost t mem ⟨.timedlock timed expected, depth⟩) :
    (code kind ids).Preserves ids ghost t mem
      (timedlockIteration kind ids t mem ⟨.timedlock timed expected, depth⟩ timed expected) := by
  rcases inv.own.known with ⟨room, ownsExpected⟩
  have quiet : (code kind ids).Quiet (.timedlock timed expected) := by simp
  unfold timedlockIteration
  split_ifs with fresh free mine notRecursive waiters isTimed unchanged
  · refine inv.acquire_critical free quiet.2 ?_ (.inl rfl) (by simp) fun _ => rfl
    rw [owner_or_waitersBit, OwnedWord.owner_tid]
  · exact inv.move quiet (by simp) ⟨room, inv.shared.owned.holder_of_owner⟩
  · exact inv.move quiet (by simp) trivial
  · exact increment_preserves inv (not_not.mp notRecursive) (ownsExpected mine) quiet.2 room
  · exact inv.move quiet (by simp) ⟨room, waiters⟩
  · exact futexWait_preserves inv quiet room waiters
  · have owned := inv.shared.owned.setWaiters (by rwa [unchanged])
    rw [unchanged] at owned
    exact inv.word owned quiet (by simp) ⟨room, owned.holder_of_owner⟩
  · exact inv.move quiet (by simp) ⟨room, inv.shared.owned.holder_of_owner⟩

theorem trylockCheck_preserves
    (inv : (code kind ids).Invariants ids ghost t mem ⟨.trylockLoaded expected, depth⟩) :
    (code kind ids).Preserves ids ghost t mem
      (trylockCheck kind ids t mem ⟨.trylockLoaded expected, depth⟩ expected) := by
  rcases inv.own.known with ⟨room, ownsExpected⟩
  have quiet : (code kind ids).Quiet (.trylockLoaded expected) := by simp
  have returns : (code kind ids).Preserves ids ghost t mem
      (mem, ⟨.outside (some .ebusy), depth⟩) := inv.move quiet (by simp) trivial
  unfold trylockCheck
  split_ifs with fresh free mine notRecursive
  · exact inv.acquire_critical free quiet.2 OwnedWord.owner_tid (.inr (.inl rfl)) (by simp)
      fun _ => rfl
  · exact returns
  · exact returns
  · exact increment_preserves inv (not_not.mp notRecursive) (ownsExpected mine) quiet.2 room
  · exact returns

theorem unlockOwner_preserves (inv : (code kind ids).Invariants ids ghost t mem ⟨.unlock, depth⟩) :
    (code kind ids).Preserves ids ghost t mem (unlockOwner kind ids t mem ⟨.unlock, depth⟩) := by
  have owner := inv.shared.owned.held t (inv.own.holds.mp (.inl inv.own.known))
  rw [unlockOwner, if_neg fun failed => failed.2 owner]
  exact inv.move (by simp) (by simp) inv.own.known

theorem unlockLevel_preserves
    (inv : (code kind ids).Invariants ids ghost t mem ⟨.unlockLevel, depth⟩) :
    (code kind ids).Preserves ids ghost t mem (unlockLevel kind mem ⟨.unlockLevel, depth⟩) := by
  have pos : 0 < depth := inv.own.known
  rw [unlockLevel]
  by_cases isRecursive : kind = .recursive
  · have counts := inv.own.recursion_ne_zero rfl (inv.own.holds.mp (.inl pos)) pos
    rw [if_pos isRecursive, if_neg counts]
    exact inv.unlock rfl (by simp) pos (by simp) (fun _ _ => trivial) (.inr (.inr rfl))
      (by simp) (fun _ => rfl)
  · rw [if_neg isRecursive]
    have single := inv.own.single (by simpa using isRecursive)
    have last : depth - 1 = 0 := Nat.sub_eq_zero_of_le single
    exact inv.last (by simp) pos (fun _ => last.symm) last (.inr (.inr rfl)) (by simp)
      (fun _ => rfl)

theorem exchange_preserves
    (inv : (code kind ids).Invariants ids ghost t mem ⟨.unlockExchange, depth⟩) :
    (code kind ids).Preserves ids ghost t mem (exchange mem ⟨.unlockExchange, depth⟩) := by
  have holder := inv.own.holds.mp (.inr (.inr (.inr rfl)))
  unfold exchange
  split_ifs with waiters
  · exact inv.release holder (by simp) inv.own.known (by simp) (iff_of_true rfl waiters)
      (fun _ => trivial)
  · exact inv.release holder (by simp) inv.own.known (by simp) (iff_of_false (by simp) waiters)
      (fun _ => trivial)

theorem threadStep_preserves [DecidableEq τ] {label : Label} {own : LockThread Pc}
    (inv : (code kind ids).Invariants ids ghost t mem own)
    {outcome : LockFields τ × LockThread Pc}
    (room : (∃ timed, label = .timedlock timed) ∨ label = .trylock →
      kind = .recursive → own.depth + 1 < 2 ^ 32)
    (steps : threadStep kind ids t mem own label = some outcome) :
    (code kind ids).Preserves ids ghost t mem outcome := by
  rcases own with ⟨pc, depth⟩
  have known := inv.own.known
  have leaves := inv.shared.owned.leave t
  unfold threadStep at steps
  dsimp only at steps
  split at steps
  all_goals try cases steps
  · exact inv.move (by simp) (by simp) ⟨room (.inl ⟨_, rfl⟩), ids.fresh⟩
  · exact inv.move (by simp) (by simp) (room (.inr rfl))
  · split_ifs at steps with unheld
    cases steps
    exact inv.move (by simp) (by simp) (Nat.pos_of_ne_zero unheld)
  · exact timedlockIteration_preserves inv
  iterate 2 exact inv.move (by simp) (by simp) trivial
  · exact futexWait_preserves inv (by simp) known.1 known.2
  · split_ifs at steps with sleeps
    cases steps
    exact inv.move (by simp) (by simp) ⟨known, ids.fresh⟩
  · exact inv.word leaves (by simp) (by simp) ⟨known, ids.fresh⟩
  · exact inv.word leaves (by simp) (by simp) trivial
  · exact setRecursion_preserves inv (.inl rfl)
  · exact inv.move (by simp) (by simp) ⟨known, inv.shared.owned.holder_of_owner⟩
  · exact trylockCheck_preserves inv
  · exact setRecursion_preserves inv (.inr rfl)
  · exact unlockOwner_preserves inv
  · exact unlockLevel_preserves inv
  · exact exchange_preserves inv
  · exact inv.wake (by simp) (by simp) trivial

theorem threadStep_tally [DecidableEq τ] {own : LockThread Pc} {label : Label}
    {outcome : LockFields τ × LockThread Pc}
    (steps : threadStep kind ids t mem own label = some outcome) :
    outcome.2.depth = tally own outcome.2.pc := by
  rcases own with ⟨pc, depth⟩
  unfold threadStep at steps
  dsimp only at steps
  split at steps
  all_goals try cases steps
  all_goals try rfl
  all_goals try
    split_ifs at steps
    cases steps
    rfl
  all_goals
    simp only [timedlockIteration, futexWait, setRecursion, trylockCheck, unlockOwner, unlockLevel,
      exchange]
    split_ifs <;> rfl

end Steps

variable [DecidableEq τ]

theorem reachable_invariants {s : ThreadState τ (LockFields τ) (LockThread Pc)}
    (reach : (system kind ids).interleaving.ReachableVia (NestsBelowLimit kind) s) :
    ∃ ghost, (code kind ids).SharedInvariant ids ghost s.shared ∧
      ∀ t, (code kind ids).LocalInvariant ghost t s.shared (s.threads t) :=
  LockCode.reachable_invariants (fun _ starts => starts) (fun _ _ starts => starts)
    (by simp) (by simp) (fun _ => trivial)
    (fun _ _ _ _ _ inv shallow steps => threadStep_preserves inv shallow steps) reach

/-- At most one thread holds the mutex, the owner bits name it, the recursion level counts its
unmatched locks, no `__ensure` fails, no wake-up is lost, and the locks of a thread change only with
its calls. -/
theorem threadMutex_safe (kind : Kind) (ids : ThreadIds τ)
    (s : ThreadState τ (LockFields τ) (LockThread Pc))
    (reach : (system kind ids).interleaving.ReachableVia (NestsBelowLimit kind) s) :
    (∀ first second, Holds (s.threads first) → Holds (s.threads second) → first = second) ∧
    (∀ t, Holds (s.threads t) → s.shared.state &&& ownerMask = ids.tid t) ∧
    (kind = .recursive → ∀ t, Holds (s.threads t) →
      s.shared.recursion.toNat = (s.threads t).depth) ∧
    (∀ t site, (s.threads t).pc ≠ .ensureFailed site) ∧
    (s.shared.asleep.Nonempty → HasWaiters s.shared.state ∨
      ∃ waker, (s.threads waker).pc = .unlockWake) ∧
    ∀ t label outcome, threadStep kind ids t s.shared (s.threads t) label = some outcome →
      outcome.2.depth = tally (s.threads t) outcome.2.pc := by
  rcases reachable_invariants reach with ⟨ghost, sharedInv, localInv⟩
  refine ⟨holder_unique localInv, ?_, ?_, ?_, wake_pending sharedInv localInv,
    fun _ _ _ => threadStep_tally⟩
  · intro t holds
    exact sharedInv.owned.held t ((localInv t).holds.mp holds)
  · intro _ t holds
    exact (localInv t).recursion rfl ((localInv t).holds.mp holds)
  intro t site failed
  have known := (localInv t).known
  rw [failed] at known
  exact known

omit [DecidableEq τ] in
instance (kind : Kind) (s : ThreadState τ (LockFields τ) (LockThread Pc)) :
    DecidablePred (NestsBelowLimit kind s) :=
  fun _ => inferInstanceAs (Decidable (_ ∨ _ → _ → _))

/-- The first thread has locked a recursive mutex twice, and the second one
sleeps in a timed lock. -/
theorem threadMutex_safe_contended : ∃ s, (system .recursive .two).interleaving.ReachableVia
        (NestsBelowLimit .recursive) s ∧
      (s.threads false).depth = 2 ∧ s.shared.asleep.Nonempty ∧
      s.shared.recursion.toNat = 2 ∧
      (HasWaiters s.shared.state ∨ ∃ waker, (s.threads waker).pc = .unlockWake) := by
  have contended : ∃ s ∈ (system .recursive .two).interleaving.run
      (NestsBelowLimit .recursive) ⟨⟨0, 0, ∅⟩, fun _ => ⟨.outside none, 0⟩⟩
      [(false, .lock), (false, .run), (false, .run), (false, .trylock), (false, .run),
        (false, .run), (true, .timedlock true), (true, .run), (true, .run), (true, .run)],
      (s.threads false).depth = 2 ∧ s.shared.asleep.Nonempty :=
    ⟨_, rfl, rfl, ⟨true, by decide⟩⟩
  obtain ⟨s, reach, depth, sleeps⟩ :=
    TransitionSystem.exists_reachable contended ⟨rfl, fun _ => rfl⟩
  have safe := threadMutex_safe .recursive .two s reach
  have level := safe.2.2.1 rfl false (.inl (by omega))
  exact ⟨s, reach, depth, sleeps, level.trans depth, safe.2.2.2.2.1 sleeps⟩

end Mlibc.ThreadMutex
