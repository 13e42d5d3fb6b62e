import Mlibc.CountWord
import Mlibc.Errno
import Mlibc.TransitionSystem

/-!
# Reader-writer locks

The functions `pthread_rwlock_*` of `options/posix/generic/pthread.cpp`, as a system of threads.
-/

namespace Mlibc.RwLock

open FutexWord

def exclBit : UInt32 := (1 : UInt32) <<< 30

/-- The fields of the lock and the threads that sleep on the two words. -/
structure Shared (τ : Type*) where
  m : UInt32
  rc : UInt32
  asleepM : Finset τ
  asleepRc : Finset τ

inductive Ensure where
  | mLockOwner
  | mTrylockOwner
  | writerCount
  | unlockCount
  deriving DecidableEq

/-- After `rwlock_m_unlock` a function returns, or `pthread_rwlock_clockwrlock` goes on. -/
inductive AfterUnlock where
  | returns (result : Option Errno)
  | lockTimed
  deriving DecidableEq

/-- Where a thread is in the code.  `excl` is for writers, `timed` for functions with a time,
`clock` for the trial at their start. -/
inductive Pc where
  | outside (result : Option Errno)
  | mLock (excl timed : Bool)
  | mLockLoop (excl timed : Bool) (expected : UInt32)
  | mLockWait (excl timed : Bool) (expected : UInt32)
  | mLockSleep (excl timed : Bool)
  | mTrylock (excl clock : Bool)
  | mTrylockLoaded (excl clock : Bool) (expected : UInt32)
  | mUnlock (after : AfterUnlock)
  | mUnlockWake (after : AfterUnlock)
  | tryWriteLoad (clock : Bool)
  | writeLoad (timed : Bool)
  | writeLoop (timed : Bool) (expected : UInt32)
  | writeWait (timed : Bool) (expected : UInt32)
  | writeSleep (timed : Bool)
  | readAdd
  | unlock
  | unlockRead (expected : UInt32)
  | unlockReadWake
  | ensureFailed (site : Ensure)
  deriving DecidableEq

/-- The local state of a thread, with the number of its read locks and whether it
holds the write lock. -/
structure Local where
  pc : Pc
  reads : Nat
  writes : Bool
  deriving DecidableEq

/-- A call or the next operation; a compare-exchange fails, a time does not convert or has passed, a
wait is interrupted or times out. -/
inductive Label where
  | rdlock
  | tryrdlock
  | clockrdlock
  | wrlock
  | trywrlock
  | clockwrlock
  | unlock
  | run
  | fail
  | timeInvalid
  | timePassed
  | interrupt
  | timeout
  deriving DecidableEq

section Steps

variable {τ : Type*} [DecidableEq τ] (t : τ) (mem : Shared τ) (own : Local)

def lockedWord (excl : Bool) : UInt32 := if excl then 1 ||| exclBit else 1

/-- One pass of the loop of `rwlock_m_lock`. -/
def mLockIteration (excl timed : Bool) (expected : UInt32) : Shared τ × Local :=
  if expected ≠ 0 then
    if expected &&& ownerMask = 0 then
      (mem, { own with pc := .ensureFailed .mLockOwner })
    else if HasWaiters expected then
      (mem, { own with pc := .mLockWait excl timed expected })
    else if mem.m = expected then
      ({ mem with m := expected ||| waitersBit }, { own with pc := .mLockWait excl timed expected })
    else (mem, { own with pc := .mLockLoop excl timed mem.m })
  else if mem.m = 0 then
    ({ mem with m := lockedWord excl },
      { own with pc := if excl then .writeLoad timed else .readAdd })
  else (mem, { own with pc := .mLockLoop excl timed mem.m })

def mFutexWait (excl timed : Bool) (expected : UInt32) : Shared τ × Local :=
  if mem.m = expected ||| waitersBit then
    ({ mem with asleepM := insert t mem.asleepM }, { own with pc := .mLockSleep excl timed })
  else (mem, { own with pc := .mLockLoop excl timed 0 })

/-- The end of `rwlock_m_trylock` when the mutex is locked.  The timed functions go
on after `EBUSY`. -/
def mTrylockFailed (excl clock : Bool) (expected : UInt32) : Local :=
  if expected &&& ownerMask = 0 then { own with pc := .ensureFailed .mTrylockOwner }
  else if !excl ∧ expected &&& exclBit = 0 then
    { own with pc := .outside (some .eagain) }
  else if clock then { own with pc := .mLock excl true }
  else { own with pc := .outside (some .ebusy) }

def mTrylockCheck (excl clock : Bool) (expected : UInt32) : Shared τ × Local :=
  if expected = 0 then
    if mem.m = 0 then
      ({ mem with m := lockedWord excl },
        { own with pc := if excl then .tryWriteLoad clock else .readAdd })
    else (mem, mTrylockFailed own excl clock mem.m)
  else (mem, mTrylockFailed own excl clock expected)

def AfterUnlock.next : AfterUnlock → Pc
  | .returns result => .outside result
  | .lockTimed => .mLock true true

/-- `rwlock_m_unlock`. -/
def mExchange (after : AfterUnlock) : Shared τ × Local :=
  if HasWaiters mem.m then
    ({ mem with m := 0 }, { own with pc := .mUnlockWake after, writes := false })
  else ({ mem with m := 0 }, { own with pc := after.next, writes := false })

def tryWriteCheck (clock : Bool) : Local :=
  if mem.rc = 0 then { own with pc := .outside none, writes := true }
  else { own with pc := .mUnlock (if clock then .lockTimed else .returns (some .ebusy)) }

/-- The test for readers at the head of the loop of `pthread_rwlock_wrlock` and
`pthread_rwlock_clockwrlock`. -/
def writeCheck (timed : Bool) : Local :=
  if mem.rc = 0 then { own with pc := .outside none, writes := true }
  else { own with pc := .writeLoop timed mem.rc }

def writeIteration (timed : Bool) (expected : UInt32) : Shared τ × Local :=
  if expected &&& countMask = 0 then
    (mem, { own with pc := .ensureFailed .writerCount })
  else if HasWaiters expected then (mem, { own with pc := .writeWait timed expected })
  else if mem.rc = expected then
    ({ mem with rc := expected ||| waitersBit }, { own with pc := .writeWait timed expected })
  else (mem, writeCheck mem own timed)

def rcFutexWait (timed : Bool) (expected : UInt32) : Shared τ × Local :=
  if mem.rc = expected ||| waitersBit then
    ({ mem with asleepRc := insert t mem.asleepRc }, { own with pc := .writeSleep timed })
  else (mem, { own with pc := .writeLoad timed })

def unlockLoad : Local :=
  if mem.rc = 0 then { own with pc := .mUnlock (.returns none) }
  else { own with pc := .unlockRead mem.rc }

def unlockReadIteration (expected : UInt32) : Shared τ × Local :=
  if expected &&& countMask = 0 then
    (mem, { own with pc := .ensureFailed .unlockCount })
  else if mem.rc = expected then
    if expected &&& countMask = 1 ∧ HasWaiters expected then
      ({ mem with rc := 0 }, { own with pc := .unlockReadWake, reads := own.reads - 1 })
    else
      ({ mem with rc :=
          (expected &&& ~~~countMask) ||| ((expected &&& countMask) - 1) },
        { own with pc := .outside none, reads := own.reads - 1 })
  else (mem, { own with pc := .unlockRead mem.rc })

def unlockReadRetry (expected : UInt32) : Local :=
  if expected &&& countMask = 0 then { own with pc := .ensureFailed .unlockCount }
  else { own with pc := .unlockRead mem.rc }

def leaveM (pc : Pc) : Shared τ × Local :=
  ({ mem with asleepM := mem.asleepM.erase t }, { own with pc := pc })

def leaveRc (pc : Pc) : Shared τ × Local :=
  ({ mem with asleepRc := mem.asleepRc.erase t }, { own with pc := pc })

def threadStep (label : Label) : Option (Shared τ × Local) :=
  match own.pc, label with
  | .outside _, .rdlock => some (mem, { own with pc := .mLock false false })
  | .outside _, .tryrdlock => some (mem, { own with pc := .mTrylock false false })
  | .outside _, .clockrdlock => some (mem, { own with pc := .mTrylock false true })
  | .outside _, .wrlock => some (mem, { own with pc := .mLock true false })
  | .outside _, .trywrlock => some (mem, { own with pc := .mTrylock true false })
  | .outside _, .clockwrlock => some (mem, { own with pc := .mTrylock true true })
  | .outside _, .unlock =>
    if own.reads = 0 ∧ own.writes = false then none
    else some (mem, { own with pc := .unlock })
  | .mLock excl timed, .run =>
    some (mem, { own with pc := .mLockLoop excl timed mem.m })
  | .mLockLoop excl timed expected, .run =>
    some (mLockIteration mem own excl timed expected)
  | .mLockWait _ true _, .timeInvalid =>
    some (mem, { own with pc := .outside (some .einval) })
  | .mLockWait _ true _, .timePassed =>
    some (mem, { own with pc := .outside (some .etimedout) })
  | .mLockWait excl timed expected, .run =>
    some (mFutexWait t mem own excl timed expected)
  | .mLockSleep excl timed, .run =>
    if t ∈ mem.asleepM then none
    else some (mem, { own with pc := .mLockLoop excl timed 0 })
  | .mLockSleep excl timed, .interrupt =>
    some (leaveM t mem own (.mLockLoop excl timed 0))
  | .mLockSleep _ true, .timeout =>
    some (leaveM t mem own (.outside (some .etimedout)))
  | .mTrylock excl clock, .run =>
    some (mem, { own with pc := .mTrylockLoaded excl clock mem.m })
  | .mTrylockLoaded excl clock expected, .run =>
    some (mTrylockCheck mem own excl clock expected)
  | .mUnlock after, .run => some (mExchange mem own after)
  | .mUnlockWake after, .run =>
    some ({ mem with asleepM := ∅ }, { own with pc := after.next })
  | .tryWriteLoad clock, .run => some (mem, tryWriteCheck mem own clock)
  | .writeLoad timed, .run => some (mem, writeCheck mem own timed)
  | .writeLoop timed expected, .run => some (writeIteration mem own timed expected)
  | .writeWait true _, .timeInvalid =>
    some (mem, { own with pc := .mUnlock (.returns (some .einval)) })
  | .writeWait true _, .timePassed =>
    some (mem, { own with pc := .mUnlock (.returns (some .etimedout)) })
  | .writeWait timed expected, .run =>
    some (rcFutexWait t mem own timed expected)
  | .writeSleep timed, .run =>
    if t ∈ mem.asleepRc then none
    else some (mem, { own with pc := .writeLoad timed })
  | .writeSleep timed, .interrupt => some (leaveRc t mem own (.writeLoad timed))
  | .writeSleep true, .timeout =>
    some (leaveRc t mem own (.mUnlock (.returns (some .etimedout))))
  | .readAdd, .run =>
    some ({ mem with rc := mem.rc + 1 },
      { own with pc := .mUnlock (.returns none), reads := own.reads + 1 })
  | .unlock, .run => some (mem, unlockLoad mem own)
  | .unlockRead expected, .run => some (unlockReadIteration mem own expected)
  | .unlockRead expected, .fail => some (mem, unlockReadRetry mem own expected)
  | .unlockReadWake, .run =>
    some ({ mem with asleepRc := ∅ }, { own with pc := .outside none })
  | _, _ => none

end Steps

def system (τ : Type*) [DecidableEq τ] : ThreadSystem τ (Shared τ) Local Label where
  initialShared mem := mem = ⟨0, 0, ∅, ∅⟩
  initialLocal _ own := own = ⟨.outside none, 0, false⟩
  threadStep t label mem own := threadStep t mem own label

/-- The read locks of a thread and whether it has the write lock, after its step to `next`. -/
def tally (own : Local) (next : Pc) : Nat × Bool :=
  match own.pc, next with
  | .readAdd, .mUnlock (.returns none) => (own.reads + 1, own.writes)
  | .unlockRead _, .outside none | .unlockRead _, .unlockReadWake => (own.reads - 1, own.writes)
  | .tryWriteLoad _, .outside none | .writeLoad _, .outside none
  | .writeLoop _ _, .outside none => (own.reads, true)
  | .mUnlock _, _ => (own.reads, false)
  | _, _ => (own.reads, own.writes)

def ReadersFit {τ : Type*} (s : ThreadState τ (Shared τ) Local) (label : τ × Label) : Prop :=
  (s.threads label.1).pc = .readAdd → label.2 = .run →
    (s.shared.rc &&& countMask).toNat + 1 < 2 ^ 31

end Mlibc.RwLock
