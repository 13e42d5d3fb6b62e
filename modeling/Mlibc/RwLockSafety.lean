import Mlibc.RwLockSteps

/-! # Safety of the reader-writer lock -/

namespace Mlibc.RwLock

open FutexWord TransitionSystem

variable {τ : Type*} [Fintype τ] [DecidableEq τ]

theorem reachable_invariants {s : ThreadState τ (Shared τ) Local}
    (reach : (system τ).interleaving.ReachableVia ReadersFit s) :
    ∃ ghost, SharedInvariant ghost s.shared ∧ ∀ t, LocalInvariant ghost t (s.threads t) := by
  apply ThreadSystem.reachable_invariant SharedInvariant
    (fun ghost t _ own => LocalInvariant ghost t own) ?_ ?_ reach
  · intro mem starts
    cases starts
    refine ⟨⟨none, false, ∅, ∅, fun _ => 0⟩, ?_, ?_⟩
    · exact ⟨fun _ => rfl, fun some => absurd rfl some, .empty, by simpa using .zero, .empty,
        fun writing => by cases writing⟩
    intro t own starts
    cases starts
    exact ⟨by simp [Pc.holdsM], by simp, by simp [Pc.wakesM], by simp [Pc.wakesRc], rfl, trivial⟩
  · intro ghost s t label mem own sharedInv localInv fits steps
    rcases threadStep_preserves ⟨sharedInv, localInv⟩ fits steps with
      ⟨newGhost, newShared, newOwn, others⟩
    exact ⟨newGhost, newShared, newOwn,
      fun other apart _ otherInv => otherInv.tolerate (others other apart)⟩

omit [Fintype τ] in
theorem threadStep_tally {t : τ}
    {mem : Shared τ} {own : Local} {label : Label} {outcome : Shared τ × Local}
    (steps : threadStep t mem own label = some outcome) :
    (outcome.2.reads, outcome.2.writes) = tally own outcome.2.pc := by
  rcases own with ⟨pc, reads, writes⟩
  unfold threadStep at steps
  dsimp only at steps
  split at steps
  all_goals try cases steps
  all_goals try rfl
  all_goals try
    split_ifs at steps
    cases steps
    rfl
  all_goals
    simp only [mLockIteration, mFutexWait, mTrylockCheck, mTrylockFailed, mExchange, tryWriteCheck,
      writeCheck, writeIteration, rcFutexWait, unlockLoad, unlockReadIteration, unlockReadRetry]
    split_ifs <;> rfl

/-- A write holder excludes every other holder, the reader count is the number of read locks, no
`__ensure` fails, no wake-up is lost, and the locks of a thread change only with its calls. -/
theorem rwLock_safe (s : ThreadState τ (Shared τ) Local)
    (reach : (system τ).interleaving.ReachableVia ReadersFit s) :
    (∀ writer, (s.threads writer).writes = true → (∀ t, (s.threads t).reads = 0) ∧
      ∀ t, (s.threads t).writes = true → t = writer) ∧
    (s.shared.rc &&& countMask).toNat = ∑ t, (s.threads t).reads ∧
    (∀ t site, (s.threads t).pc ≠ .ensureFailed site) ∧
    (s.shared.asleepM.Nonempty → HasWaiters s.shared.m ∨
      ∃ waker after, (s.threads waker).pc = .mUnlockWake after) ∧
    (s.shared.asleepRc.Nonempty → HasWaiters s.shared.rc ∨
      ∃ waker, (s.threads waker).pc = .unlockReadWake) ∧
    ∀ t label outcome, threadStep t s.shared (s.threads t) label = some outcome →
      (outcome.2.reads, outcome.2.writes) = tally (s.threads t) outcome.2.pc := by
  rcases reachable_invariants reach with ⟨ghost, sharedInv, localInv⟩
  refine ⟨?_, ?_, ?_, ?_, ?_, fun _ _ _ => threadStep_tally⟩
  · intro writer writes
    rcases (localInv writer).writes.mp writes with ⟨holder, writing⟩
    constructor
    · intro t
      by_contra reads
      exact sharedInv.rc_ne_zero (localInv t) (Nat.pos_of_ne_zero reads)
        (sharedInv.writing writing).2
    intro t alsoWrites
    have alsoHolder := ((localInv t).writes.mp alsoWrites).1
    rw [holder] at alsoHolder
    exact (Option.some.inj alsoHolder).symm
  · rw [sharedInv.count.value]
    exact Finset.sum_congr rfl fun t _ => (localInv t).reads.symm
  · intro t site failed
    have known := (localInv t).known
    rw [Known, failed] at known
    exact known
  · intro sleeps
    refine (sharedInv.safeM sleeps).imp_right ?_
    rintro ⟨waker, member⟩
    have wakes := (localInv waker).wakesM.mpr member
    unfold Pc.wakesM at wakes
    split at wakes
    · next after atPc => exact ⟨waker, after, atPc⟩
    · cases wakes
  · intro sleeps
    refine (sharedInv.safeRc sleeps).imp_right ?_
    rintro ⟨waker, member⟩
    have wakes := (localInv waker).wakesRc.mpr member
    unfold Pc.wakesRc at wakes
    split at wakes
    · next atPc => exact ⟨waker, atPc⟩
    · cases wakes

omit [Fintype τ] [DecidableEq τ] in
instance (s : ThreadState τ (Shared τ) Local) : DecidablePred (ReadersFit s) :=
  fun _ => inferInstanceAs (Decidable (_ → _ → _))

/-- The first thread reads, the second one waits to write, and the third one waits for the mutex. -/
theorem rwLock_safe_contended : ∃ s, (system (Fin 3)).interleaving.ReachableVia ReadersFit s ∧
      s.shared.asleepM.Nonempty ∧ s.shared.asleepRc.Nonempty ∧
      (s.shared.rc &&& countMask).toNat = 1 ∧
      (HasWaiters s.shared.m ∨ ∃ waker after, (s.threads waker).pc = .mUnlockWake after) := by
  have contended : ∃ s ∈ (system (Fin 3)).interleaving.run ReadersFit
      ⟨⟨0, 0, ∅, ∅⟩, fun _ => ⟨.outside none, 0, false⟩⟩
      [(0, .rdlock), (0, .run), (0, .run), (0, .run), (0, .run),
        (1, .clockwrlock), (1, .run), (1, .run), (1, .run), (1, .run), (1, .run), (1, .run),
        (1, .run), (1, .run), (1, .run), (2, .rdlock), (2, .run), (2, .run), (2, .run)],
      s.shared.asleepM.Nonempty ∧ s.shared.asleepRc.Nonempty ∧ ∑ t, (s.threads t).reads = 1 :=
    ⟨_, rfl, ⟨2, by decide⟩, ⟨1, by decide⟩, rfl⟩
  obtain ⟨s, reach, sleepsM, sleepsRc, reads⟩ :=
    exists_reachable contended ⟨rfl, fun _ => rfl⟩
  have safe := rwLock_safe s reach
  exact ⟨s, reach, sleepsM, sleepsRc, safe.2.1.trans reads, safe.2.2.2.1 sleepsM⟩

/-! ### The reader count overflows -/

structure HasRead (locks : Nat) (s : ThreadState Bool (Shared Bool) Local) : Prop where
  reachable : (system Bool).interleaving.Reachable s
  m : s.shared.m = 0
  rc : s.shared.rc = UInt32.ofNat locks
  reader : s.threads false = ⟨.outside none, locks, false⟩
  writer : s.threads true = ⟨.outside none, 0, false⟩

theorem HasRead.read {locks : Nat} {s : ThreadState Bool (Shared Bool) Local}
    (hasRead : HasRead locks s) : ∃ next, HasRead (locks + 1) next := by
  have runs : ∃ next, (system Bool).interleaving.run (fun _ _ => True) s
      [(false, .rdlock), (false, .run), (false, .run), (false, .run), (false, .run)] =
        some next ∧ next.shared.m = 0 ∧ next.shared.rc = UInt32.ofNat locks + 1 ∧
      next.threads false = ⟨.outside none, locks + 1, false⟩ ∧
      next.threads true = ⟨.outside none, 0, false⟩ := by
    simp [run, ThreadSystem.interleaving, system, threadStep,
      mLockIteration, mExchange, AfterUnlock.next, hasRead.reader, hasRead.writer, hasRead.m,
      hasRead.rc, lockedWord, show ¬ HasWaiters 1 by decide]
  rcases runs with ⟨next, runs, m, rc, reader, writer⟩
  refine ⟨next, hasRead.reachable.run runs, m, ?_, reader, writer⟩
  rw [rc, UInt32.ofNat_add]
  rfl

theorem exists_hasRead (locks : Nat) : ∃ s, HasRead locks s := by
  induction locks with
  | zero =>
    exact ⟨⟨⟨0, 0, ∅, ∅⟩, fun _ => ⟨.outside none, 0, false⟩⟩,
      .initial ⟨rfl, fun _ => rfl⟩, rfl, rfl, rfl, rfl⟩
  | succ locks ih =>
    rcases ih with ⟨s, hasRead⟩
    exact hasRead.read

/-- One thread takes 2^31 read locks: the reader count overflows into the waiters
bit, and the `__ensure` of a writer fails. -/
theorem rwLock_readers_overflow :
    ∃ s, (system Bool).interleaving.Reachable s ∧ (s.threads false).reads = 2 ^ 31 ∧
      (s.shared.rc &&& countMask).toNat = 0 ∧
      (s.threads true).pc = .ensureFailed .writerCount := by
  rcases exists_hasRead (2 ^ 31) with ⟨s, hasRead⟩
  have runs : ∃ next, (system Bool).interleaving.run (fun _ _ => True) s
      [(true, .wrlock), (true, .run), (true, .run), (true, .run), (true, .run)] =
        some next ∧ (next.threads false).reads = 2 ^ 31 ∧
      next.shared.rc = UInt32.ofNat (2 ^ 31) ∧
      (next.threads true).pc = .ensureFailed .writerCount := by
    have count : (2147483648 : UInt32) &&& countMask = 0 := by decide
    simp [run, ThreadSystem.interleaving, system, threadStep,
      mLockIteration, writeCheck, writeIteration, hasRead.reader, hasRead.writer, hasRead.m,
      hasRead.rc, count]
  rcases runs with ⟨next, runs, reads, rc, failed⟩
  refine ⟨next, hasRead.reachable.run runs, reads, ?_, failed⟩
  rw [rc]
  decide

end Mlibc.RwLock
