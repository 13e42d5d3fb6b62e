import Mlibc.NestedLock

/-!
# The internal futex lock

`FutexLockImpl` of `options/internal/include/mlibc/lock.hpp`, as a system of threads.
-/

namespace Mlibc.FutexLock

open FutexWord

inductive Ensure where
  | lockRecursion
  | tryLockRecursion
  | unlockRecursion
  | unlockOwner
  deriving DecidableEq

/-- Where a thread is in the code.  Outside it remembers what `try_lock` has returned. -/
inductive Pc where
  | outside (result : Option Bool)
  | lock (expected : UInt32)
  | lockWait
  | lockAcquired
  | tryLock
  | tryLockLoaded (expected : UInt32)
  | tryLockAcquired
  | unlock
  | unlockExchange
  | unlockWake
  | panicked
  | ensureFailed (site : Ensure)
  deriving DecidableEq

/-- A call or the next operation, or an interrupt by a signal. -/
inductive Label where
  | lock
  | tryLock
  | unlock
  | run
  | interrupt
  deriving DecidableEq

section Steps

variable {τ : Type*} [DecidableEq τ] (recursive : Bool) (ids : ThreadIds τ)
  (t : τ) (mem : LockFields τ) (own : LockThread Pc)

/-- One pass of the loop of `lock`. -/
def lockIteration (expected : UInt32) : LockFields τ × LockThread Pc :=
  if expected = 0 then
    if mem.state = 0 then
      if recursive then
        ({ mem with state := ids.tid t }, { own with pc := .lockAcquired })
      else
        ({ mem with state := ids.tid t }, ⟨.outside none, own.depth + 1⟩)
    else (mem, { own with pc := .lock mem.state })
  else if expected &&& ownerMask = ids.tid t then
    if recursive then
      ({ mem with recursion := mem.recursion + 1 }, ⟨.outside none, own.depth + 1⟩)
    else (mem, { own with pc := .panicked })
  else if HasWaiters expected then
    if mem.state = expected then
      ({ mem with asleep := insert t mem.asleep }, { own with pc := .lockWait })
    else (mem, { own with pc := .lock 0 })
  else if mem.state = expected then
    ({ mem with state := expected ||| waitersBit },
      { own with pc := .lock (expected ||| waitersBit) })
  else (mem, { own with pc := .lock mem.state })

def lockFinish : LockFields τ × LockThread Pc :=
  if mem.recursion ≠ 0 then
    (mem, { own with pc := .ensureFailed .lockRecursion })
  else ({ mem with recursion := 1 }, ⟨.outside none, own.depth + 1⟩)

def tryLockCheck (expected : UInt32) : LockFields τ × LockThread Pc :=
  if expected = 0 then
    if mem.state = 0 then
      if recursive then
        ({ mem with state := ids.tid t }, { own with pc := .tryLockAcquired })
      else
        ({ mem with state := ids.tid t }, ⟨.outside (some true), own.depth + 1⟩)
    else (mem, { own with pc := .outside (some false) })
  else if expected &&& ownerMask = ids.tid t then
    if recursive then
      if mem.recursion = 0 then
        (mem, { own with pc := .ensureFailed .tryLockRecursion })
      else
        ({ mem with recursion := mem.recursion + 1 }, ⟨.outside (some true), own.depth + 1⟩)
    else (mem, { own with pc := .outside (some false) })
  else (mem, { own with pc := .outside (some false) })

def unlockRecursion : LockFields τ × LockThread Pc :=
  if recursive then
    if mem.recursion = 0 then
      (mem, { own with pc := .ensureFailed .unlockRecursion })
    else if mem.recursion - 1 ≠ 0 then
      ({ mem with recursion := mem.recursion - 1 }, ⟨.outside none, own.depth - 1⟩)
    else
      ({ mem with recursion := mem.recursion - 1 }, ⟨.unlockExchange, own.depth - 1⟩)
  else (mem, ⟨.unlockExchange, own.depth - 1⟩)

def exchange : LockFields τ × LockThread Pc :=
  if mem.state &&& ownerMask ≠ ids.tid t then
    ({ mem with state := 0 }, { own with pc := .ensureFailed .unlockOwner })
  else if HasWaiters mem.state then
    ({ mem with state := 0 }, { own with pc := .unlockWake })
  else ({ mem with state := 0 }, { own with pc := .outside none })

def threadStep (label : Label) : Option (LockFields τ × LockThread Pc) :=
  match own.pc, label with
  | .outside _, .lock => some (mem, { own with pc := .lock 0 })
  | .outside _, .tryLock => some (mem, { own with pc := .tryLock })
  | .outside _, .unlock =>
    if own.depth = 0 then none else some (mem, { own with pc := .unlock })
  | .lock expected, .run =>
    some (lockIteration recursive ids t mem own expected)
  | .lockWait, .run =>
    if t ∈ mem.asleep then none
    else some (mem, { own with pc := .lock 0 })
  | .lockWait, .interrupt =>
    some ({ mem with asleep := mem.asleep.erase t }, { own with pc := .lock 0 })
  | .lockAcquired, .run => some (lockFinish mem own)
  | .tryLock, .run => some (mem, { own with pc := .tryLockLoaded mem.state })
  | .tryLockLoaded expected, .run =>
    some (tryLockCheck recursive ids t mem own expected)
  | .tryLockAcquired, .run =>
    some ({ mem with recursion := 1 }, ⟨.outside (some true), own.depth + 1⟩)
  | .unlock, .run => some (unlockRecursion recursive mem own)
  | .unlockExchange, .run => some (exchange ids t mem own)
  | .unlockWake, .run =>
    some ({ mem with asleep := ∅ }, { own with pc := .outside none })
  | _, _ => none

end Steps

def system {τ : Type*} [DecidableEq τ] (recursive : Bool) (ids : ThreadIds τ) :
    ThreadSystem τ (LockFields τ) (LockThread Pc) Label where
  initialShared mem := mem = ⟨0, 0, ∅⟩
  initialLocal _ own := own = ⟨.outside none, 0⟩
  threadStep t label mem own :=
    threadStep recursive ids t mem own label

def Holds (own : LockThread Pc) : Prop :=
  0 < own.depth ∨ own.pc = .lockAcquired ∨ own.pc = .tryLockAcquired ∨ own.pc = .unlockExchange

/-- The unmatched locks after a step: `lock` returns or `try_lock` returns `true`, or an unlock. -/
def tally (own : LockThread Pc) (next : Pc) : Nat :=
  match own.pc, next with
  | .lock _, .outside none | .lockAcquired, .outside none
  | .tryLockLoaded _, .outside (some true) | .tryLockAcquired, .outside (some true) =>
    own.depth + 1
  | .unlock, .outside none | .unlock, .unlockExchange => own.depth - 1
  | _, _ => own.depth

def NestsBelowLimit {τ : Type*} (recursive : Bool)
    (s : ThreadState τ (LockFields τ) (LockThread Pc)) (label : τ × Label) : Prop :=
  label.2 = .lock ∨ label.2 = .tryLock → recursive = true → (s.threads label.1).depth + 1 < 2 ^ 32

end Mlibc.FutexLock
