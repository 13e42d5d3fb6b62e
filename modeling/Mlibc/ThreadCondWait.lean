import Mlibc.ThreadCond
import Mlibc.ThreadMutexCalls

/-! # The mutex inside a wait -/

namespace Mlibc.ThreadCond

open ThreadMutex

def AfterLock.Expected (waiter : Waiter) : AfterLock → Prop
  | .check none | .check (some .eagain) | .check (some .eintr) => True
  | .check (some .etimedout) => waiter.timed = true
  | .check (some _) => False
  | .fail _ => True

def WaitKnown (kind : ThreadMutex.Kind) (own : Local) : Prop :=
  match own.pc with
  | .wait _ => own.mutexResult ≠ none ∧ 0 < own.mutex.depth
  | .waitUnlock _ => ThreadMutex.Unlocking kind own.mutex
  | .waitFutex _ | .waitSleep _ =>
    own.mutexResult ≠ none ∧ ThreadMutex.Lockable kind own.mutex.depth
  | .waitLock waiter after => ThreadMutex.Locking kind own.mutex ∧ after.Expected waiter
  | .waitCheck waiter e =>
    own.mutexResult ≠ none ∧ 0 < own.mutex.depth ∧ (AfterLock.check e).Expected waiter
  | .panicked => False
  | .ensureFailed site => site = .seqAdvanced
  | _ => True

variable {τ : Type*} [DecidableEq τ] {kind : ThreadMutex.Kind} {ids : ThreadIds τ}
  {t : τ} {mem after : Shared τ} {own next : Local} {label : Label τ}
  {mutexLabel : ThreadMutex.Label}

omit [DecidableEq τ] in
theorem mutexResult_eq_some {result : Option Errno} :
    own.mutexResult = some result ↔ own.mutex.pc = .outside result := by
  unfold Local.mutexResult
  split <;> simp_all

theorem running_of_mutexResult (running : own.mutexResult = none)
    (result : Option Errno) : own.mutex.pc ≠ .outside result := by
  rw [Ne, ← mutexResult_eq_some, running]
  simp

/-- A step leaves the mutex alone or is a step of the mutex, and does not nest too deep. -/
structure WaitStep (kind : ThreadMutex.Kind) (ids : ThreadIds τ) (t : τ)
    (mem after : Shared τ) (own next : Local) (label : Label τ) : Prop where
  projects : after.mutex = mem.mutex ∧ next.mutex = own.mutex ∨
    ∃ mutexLabel, ThreadMutex.threadStep kind ids t mem.mutex own.mutex
        mutexLabel = some (after.mutex, next.mutex) ∧
      (label = .mutex mutexLabel ∨ mutexLabel = .unlock ∨
        mutexLabel = .lock ∧ ThreadMutex.Lockable kind own.mutex.depth)
  known : WaitKnown kind next

theorem waitStep_mutex (steps : mutexStep kind ids t mem own mutexLabel = some (after, next))
    (known : ∀ mutex ownMutex, ThreadMutex.threadStep kind ids t mem.mutex
      own.mutex mutexLabel = some (mutex, ownMutex) →
      WaitKnown kind { own with mutex := ownMutex }) :
    WaitStep kind ids t mem after own next (.mutex mutexLabel) := by
  unfold mutexStep at steps
  split at steps
  · cases steps
  · next mutex ownMutex mutexSteps =>
    cases steps
    exact ⟨.inr ⟨mutexLabel, mutexSteps, .inl rfl⟩, known mutex ownMutex mutexSteps⟩

theorem waitStep_callUnlock (waiter : Waiter) (same : after.mutex = mem.mutex)
    (ret : own.mutexResult ≠ none) (pos : 0 < own.mutex.depth) :
    WaitStep kind ids t mem after own (callUnlock own waiter) label := by
  refine ⟨.inr ⟨.unlock, ?_, .inr (.inl rfl)⟩, trivial⟩
  rcases Option.ne_none_iff_exists'.mp ret with ⟨result, atResult⟩
  simp [same, ThreadMutex.threadStep, mutexResult_eq_some.mp atResult, callUnlock, pos.ne']

theorem waitStep_callLock (waiter : Waiter) (afterLock : AfterLock)
    (same : after.mutex = mem.mutex) (ret : own.mutexResult ≠ none)
    (lockable : ThreadMutex.Lockable kind own.mutex.depth)
    (expected : afterLock.Expected waiter) :
    WaitStep kind ids t mem after own (callLock own waiter afterLock) label := by
  refine ⟨.inr ⟨.lock, ?_, .inr (.inr ⟨rfl, lockable⟩)⟩, lockable, expected⟩
  rcases Option.ne_none_iff_exists'.mp ret with ⟨result, atResult⟩
  simp [same, ThreadMutex.threadStep, ThreadMutex.Label.lock, mutexResult_eq_some.mp atResult,
    callLock]

section

variable (ret : own.mutexResult ≠ none)

include ret

theorem waitCheck_step {waiter : Waiter} {e : Option Errno} (pos : 0 < own.mutex.depth)
    (expected : (AfterLock.check e).Expected waiter) :
    WaitStep kind ids t mem mem own (waitCheck mem own waiter e) label := by
  unfold waitCheck
  split
  · split_ifs
    · exact ⟨.inl ⟨rfl, rfl⟩, trivial⟩
    · exact waitStep_callUnlock _ rfl ret pos
  · split_ifs
    · exact ⟨.inl ⟨rfl, rfl⟩, trivial⟩
    · exact ⟨.inl ⟨rfl, rfl⟩, rfl⟩
  · exact waitStep_callUnlock _ rfl ret pos
  · have isTimed : waiter.timed = true := expected
    rw [if_pos isTimed]
    exact ⟨.inl ⟨rfl, rfl⟩, trivial⟩
  · next unexpected => simp_all [AfterLock.Expected]

end

theorem threadStep_wait {ghost : LockGhost τ}
    (inv : (code kind ids).Invariants ids ghost t mem.mutex own.mutex)
    (known : WaitKnown kind own)
    (steps : threadStep kind ids t mem own label = some (after, next)) :
    WaitStep kind ids t mem after own next label := by
  rcases own with ⟨mutex, pc⟩
  unfold threadStep at steps
  dsimp only at steps
  split at steps
  all_goals try cases steps
  · exact waitStep_mutex steps fun _ _ _ => trivial
  · split_ifs at steps with blocked
    cases steps
    exact ⟨.inl ⟨rfl, rfl⟩, by grind [WaitKnown, Local.mutexResult]⟩
  iterate 2
    · split_ifs at steps
      cases steps
      exact ⟨.inl ⟨rfl, rfl⟩, trivial⟩
  · exact ⟨.inl ⟨rfl, rfl⟩, trivial⟩
  · unfold waitStart
    split_ifs
    · exact ⟨.inl ⟨rfl, rfl⟩, trivial⟩
    · exact waitStep_callUnlock _ rfl known.1 known.2
  · split_ifs at steps with running
    exact waitStep_mutex steps fun _ _ mutexSteps =>
      ThreadMutex.unlocking_step inv known (running_of_mutexResult running) mutexSteps
  · split at steps
    · cases steps
    · next ret =>
      cases steps
      have atPc : mutex.pc = _ := mutexResult_eq_some.mp ret
      refine ⟨.inl ⟨rfl, rfl⟩, ret.trans_ne (by simp), ?_⟩
      simpa [WaitKnown, Unlocking, atPc] using known
    · next failed =>
      have atPc : mutex.pc = _ := mutexResult_eq_some.mp failed
      simp [WaitKnown, Unlocking, atPc] at known
  iterate 2
    · split_ifs at steps with timed
      cases steps
      exact waitStep_callLock _ _ rfl known.1 known.2 trivial
  · rcases Prod.ext_iff.mp (Option.some.inj steps) with ⟨rfl, rfl⟩
    unfold futexWait
    split_ifs
    · exact ⟨.inl ⟨rfl, rfl⟩, known⟩
    · exact waitStep_callLock _ _ rfl known.1 known.2 trivial
  · split_ifs at steps
    cases steps
    exact waitStep_callLock _ _ rfl known.1 known.2 trivial
  iterate 2 exact waitStep_callLock _ _ rfl known.1 known.2 trivial
  · split_ifs at steps with timed
    cases steps
    exact waitStep_callLock _ _ rfl known.1 known.2 timed
  · split_ifs at steps with running
    exact waitStep_mutex steps fun _ _ mutexSteps =>
      ⟨locking_step inv.own known.1 (running_of_mutexResult running) mutexSteps, known.2⟩
  · next waiter afterLock =>
    split at steps
    · cases steps
    · next ret =>
      cases steps
      refine ⟨.inl ⟨rfl, rfl⟩, ?_⟩
      cases afterLock with
      | check e =>
        have atPc : mutex.pc = _ := mutexResult_eq_some.mp ret
        have pos := known.1
        simp only [Locking, atPc] at pos
        exact ⟨ret.trans_ne (by simp), pos, known.2⟩
      | fail err => trivial
    · next failed =>
      have atPc : mutex.pc = _ := mutexResult_eq_some.mp failed
      simp [WaitKnown, Locking, atPc] at known
  · exact ⟨.inl ⟨rfl, rfl⟩, trivial⟩
  · exact waitCheck_step known.1 known.2.1 known.2.2
  · exact ⟨.inl ⟨rfl, rfl⟩, trivial⟩
  iterate 2
    · split_ifs at steps
      cases steps
      exact ⟨.inl ⟨rfl, rfl⟩, trivial⟩
  iterate 2 exact ⟨.inl ⟨rfl, rfl⟩, trivial⟩

omit [DecidableEq τ] in
theorem WaitStep.room (fits : label = .mutex mutexLabel ∨ mutexLabel = .unlock ∨
      mutexLabel = .lock ∧ ThreadMutex.Lockable kind own.mutex.depth)
    (shallow : ∀ clientLabel, label = .mutex clientLabel →
      (∃ timed, clientLabel = .timedlock timed) ∨ clientLabel = .trylock →
      kind = .recursive → own.mutex.depth + 1 < 2 ^ 32) :
    (∃ timed, mutexLabel = .timedlock timed) ∨ mutexLabel = .trylock →
      kind = .recursive → own.mutex.depth + 1 < 2 ^ 32 := by
  rcases fits with client | rfl | ⟨rfl, lockable⟩
  · exact shallow mutexLabel client
  · simp
  · exact fun _ => lockable.1

variable {s : ThreadState τ (Shared τ) Local}

theorem reachable_waitKnown
    (reach : (system kind ids).interleaving.ReachableVia (NestsBelowLimit kind)
      s) (t : τ) : WaitKnown kind (s.threads t) := by
  have invariant := ThreadSystem.reachable_invariant (fun ghost (mem : Shared τ) =>
      (code kind ids).SharedInvariant ids ghost mem.mutex)
    (fun ghost t (mem : Shared τ) (own : Local) =>
      (code kind ids).LocalInvariant ghost t mem.mutex own.mutex ∧ WaitKnown kind own) ?_ ?_ reach
  · rcases invariant with ⟨ghost, -, threads⟩
    exact (threads t).2
  · rintro mem rfl
    refine ⟨⟨none, ∅⟩, ⟨⟨fun _ => rfl, by simp, .empty⟩, fun _ _ => rfl⟩, ?_⟩
    rintro t own rfl
    exact ⟨⟨by simp [LockCode.Holds], by simp, by simp, by simp, trivial⟩, trivial⟩
  rintro ghost s t label after next sharedInv ⟨localInv, known⟩ shallow steps
  have step := threadStep_wait ⟨sharedInv, localInv⟩ known steps
  rcases step.projects with ⟨sameShared, sameOwn⟩ | ⟨mutexLabel, mutexSteps, fits⟩
  · rw [sameShared, sameOwn]
    exact ⟨ghost, sharedInv, ⟨localInv, step.known⟩, fun _ _ _ otherInv => otherInv⟩
  have preserved := threadStep_preserves ⟨sharedInv, localInv⟩ (WaitStep.room fits shallow)
    mutexSteps
  rcases preserved with ⟨newGhost, newShared, newLocal, others⟩
  exact ⟨newGhost, newShared, ⟨newLocal, step.known⟩, fun other apart otherOwn otherInv =>
      ⟨otherInv.1.tolerate (others other apart), otherInv.2⟩⟩

end Mlibc.ThreadCond
