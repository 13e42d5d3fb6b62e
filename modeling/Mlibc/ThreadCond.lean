import Mlibc.ThreadMutex

/-!
# Condition variables

`thread_cond_timedwait`, `thread_cond_signal` and `thread_cond_broadcast` of
`options/internal/generic/threads.cpp`.
-/

namespace Mlibc.ThreadCond

/-- The condition variable, its mutex, the sleeping threads, and the number of signals so far. -/
structure Shared (τ : Type*) where
  mutex : LockFields τ
  seq : UInt32
  asleep : Finset τ
  signals : Nat

structure Timespec where
  sec : Int
  nsec : Int
  deriving DecidableEq

def Timespec.Invalid (time : Timespec) : Prop := time.nsec < 0 ∨ time.nsec ≥ 1000000000

instance (time : Timespec) : Decidable time.Invalid :=
  inferInstanceAs (Decidable (_ ∨ _))

/-- Whether a wait has a time, its snapshot of `__mlibc_seq`, and the number of signals then. -/
structure Waiter where
  timed : Bool
  seq : UInt32
  since : Nat
  deriving DecidableEq

inductive AfterLock where
  | check (e : Option Errno)
  | fail (err : Errno)
  deriving DecidableEq

inductive Ensure where
  | unlockMutex
  | lockMutex
  | seqAdvanced
  | abstimeGiven
  deriving DecidableEq

/-- Where a thread is in the code.  In `waitUnlock` and `waitLock` it executes
the mutex function. -/
inductive Pc where
  | outside (result : Option Errno)
  | wait (abstime : Option Timespec)
  | waitUnlock (waiter : Waiter)
  | waitFutex (waiter : Waiter)
  | waitSleep (waiter : Waiter)
  | waitLock (waiter : Waiter) (after : AfterLock)
  | waitCheck (waiter : Waiter) (e : Option Errno)
  | signal
  | signalWake
  | broadcast
  | broadcastWake
  | exited
  | panicked
  | ensureFailed (site : Ensure)
  deriving DecidableEq

def AfterLock.next (waiter : Waiter) : AfterLock → Pc
  | .check e => .waitCheck waiter e
  | .fail err => .outside (some err)

structure Local where
  mutex : LockThread ThreadMutex.Pc
  pc : Pc
  deriving DecidableEq

def Local.mutexResult (own : Local) : Option (Option Errno) :=
  match own.mutex.pc with
  | .outside result => some result
  | _ => none

/-- A call, the next operation or a step of the mutex; a cancellation, a time, an interrupt or a
spurious wake-up; the kernel picks the thread that a signal wakes. -/
inductive Label (τ : Type*) where
  | mutex (label : ThreadMutex.Label)
  | wait (abstime : Option Timespec)
  | signal
  | broadcast
  | run
  | cancel
  | timeInvalid
  | timePassed
  | interrupt
  | timeout
  | spurious
  | wake (sleeper : τ)

section Steps

variable {τ : Type*} [DecidableEq τ] (kind : ThreadMutex.Kind) (ids : ThreadIds τ)
  (t : τ) (mem : Shared τ) (own : Local)

def mutexStep (label : ThreadMutex.Label) : Option (Shared τ × Local) :=
  match ThreadMutex.threadStep kind ids t mem.mutex own.mutex label with
  | none => none
  | some (mutex, ownMutex) =>
    some ({ mem with mutex := mutex }, { own with mutex := ownMutex })

def callUnlock (waiter : Waiter) : Local :=
  ⟨{ own.mutex with pc := .unlock }, .waitUnlock waiter⟩

def callLock (waiter : Waiter) (after : AfterLock) : Local :=
  ⟨{ own.mutex with pc := .timedlock false 0 }, .waitLock waiter after⟩

def waitStart (abstime : Option Timespec) : Local :=
  if ∃ time ∈ abstime, time.Invalid then { own with pc := .outside (some .einval) }
  else callUnlock own ⟨abstime.isSome, mem.seq, mem.signals⟩

def futexWait (waiter : Waiter) : Shared τ × Local :=
  if mem.seq = waiter.seq then
    ({ mem with asleep := insert t mem.asleep }, { own with pc := .waitSleep waiter })
  else (mem, callLock own waiter (.check (some .eagain)))

def waitCheck (waiter : Waiter) : Option Errno → Local
  | none =>
    if mem.seq > waiter.seq then { own with pc := .outside none }
    else callUnlock own waiter
  | some .eagain =>
    if mem.seq > waiter.seq then { own with pc := .outside none }
    else { own with pc := .ensureFailed .seqAdvanced }
  | some .eintr => callUnlock own waiter
  | some .etimedout =>
    if waiter.timed then { own with pc := .outside (some .etimedout) }
    else { own with pc := .ensureFailed .abstimeGiven }
  | some _ => { own with pc := .panicked }

def leaveQueue (waiter : Waiter) (e : Option Errno) : Shared τ × Local :=
  ({ mem with asleep := mem.asleep.erase t }, callLock own waiter (.check e))

def threadStep (label : Label τ) : Option (Shared τ × Local) :=
  match own.pc, label with
  | .outside _, .mutex label => mutexStep kind ids t mem own label
  | .outside _, .wait abstime =>
    if own.mutexResult = none ∨ own.mutex.depth = 0 then none
    else some (mem, { own with pc := .wait abstime })
  | .outside _, .signal =>
    if own.mutexResult = none then none else some (mem, { own with pc := .signal })
  | .outside _, .broadcast =>
    if own.mutexResult = none then none
    else some (mem, { own with pc := .broadcast })
  | .wait _, .cancel => some (mem, { own with pc := .exited })
  | .wait abstime, .run => some (mem, waitStart mem own abstime)
  | .waitUnlock _, .mutex label =>
    if own.mutexResult = none then mutexStep kind ids t mem own label else none
  | .waitUnlock waiter, .run =>
    match own.mutexResult with
    | none => none
    | some none => some (mem, { own with pc := .waitFutex waiter })
    | some (some _) => some (mem, { own with pc := .ensureFailed .unlockMutex })
  | .waitFutex waiter, .timeInvalid =>
    if waiter.timed then some (mem, callLock own waiter (.fail .einval)) else none
  | .waitFutex waiter, .timePassed =>
    if waiter.timed then some (mem, callLock own waiter (.fail .etimedout)) else none
  | .waitFutex waiter, .run => some (futexWait t mem own waiter)
  | .waitSleep waiter, .run =>
    if t ∈ mem.asleep then none
    else some (mem, callLock own waiter (.check none))
  | .waitSleep waiter, .spurious => some (leaveQueue t mem own waiter none)
  | .waitSleep waiter, .interrupt =>
    some (leaveQueue t mem own waiter (some .eintr))
  | .waitSleep waiter, .timeout =>
    if waiter.timed then some (leaveQueue t mem own waiter (some .etimedout))
    else none
  | .waitLock _ _, .mutex label =>
    if own.mutexResult = none then mutexStep kind ids t mem own label else none
  | .waitLock waiter after, .run =>
    match own.mutexResult with
    | none => none
    | some none => some (mem, { own with pc := after.next waiter })
    | some (some _) => some (mem, { own with pc := .ensureFailed .lockMutex })
  | .waitCheck _ (some .eintr), .cancel => some (mem, { own with pc := .exited })
  | .waitCheck waiter e, .run => some (mem, waitCheck mem own waiter e)
  | .signal, .run =>
    some ({ mem with seq := mem.seq + 1, signals := mem.signals + 1 },
      { own with pc := .signalWake })
  | .signalWake, .run =>
    if mem.asleep = ∅ then some (mem, { own with pc := .outside none }) else none
  | .signalWake, .wake sleeper =>
    if sleeper ∈ mem.asleep then
      some ({ mem with asleep := mem.asleep.erase sleeper }, { own with pc := .outside none })
    else none
  | .broadcast, .run =>
    some ({ mem with seq := mem.seq + 1, signals := mem.signals + 1 },
      { own with pc := .broadcastWake })
  | .broadcastWake, .run =>
    some ({ mem with asleep := ∅ }, { own with pc := .outside none })
  | _, _ => none

end Steps

def system {τ : Type*} [DecidableEq τ] (kind : ThreadMutex.Kind) (ids : ThreadIds τ) :
    ThreadSystem τ (Shared τ) Local (Label τ) where
  initialShared mem := mem = ⟨⟨0, 0, ∅⟩, 0, ∅, 0⟩
  initialLocal _ own := own = ⟨⟨.outside none, 0⟩, .outside none⟩
  threadStep t label mem own := threadStep kind ids t mem own label

def mutexState {τ : Type*} (s : ThreadState τ (Shared τ) Local) :
    ThreadState τ (LockFields τ) (LockThread ThreadMutex.Pc) :=
  ⟨s.shared.mutex, fun t => (s.threads t).mutex⟩

def NestsBelowLimit {τ : Type*} (kind : ThreadMutex.Kind)
    (s : ThreadState τ (Shared τ) Local) (label : τ × Label τ) : Prop :=
  ∀ mutexLabel, label.2 = .mutex mutexLabel →
    ThreadMutex.NestsBelowLimit kind (mutexState s) (label.1, mutexLabel)

end Mlibc.ThreadCond
