import Mlibc.Errno
import Mlibc.NestedLock

/-!
# Thread mutexes

The functions `thread_mutex_*` of `options/internal/generic/threads.cpp`, as a system of threads.
-/

namespace Mlibc.ThreadMutex

open FutexWord

/-- The types of `thread_mutex_init`, as the flags of the mutex record them. -/
inductive Kind where
  | normal
  | errorCheck
  | recursive
  deriving DecidableEq

inductive Ensure where
  | timedlockRecursion
  | trylockRecursion
  | unlockRecursion
  deriving DecidableEq

/-- Where a thread is in the code.  Outside it remembers the last result; a
`timedlock` remembers whether it was given a time. -/
inductive Pc where
  | outside (result : Option Errno)
  | timedlock (timed : Bool) (expected : UInt32)
  | timedlockTimeout (expected : UInt32)
  | timedlockWait (timed : Bool)
  | timedlockAcquired
  | trylock
  | trylockLoaded (expected : UInt32)
  | trylockAcquired
  | unlock
  | unlockLevel
  | unlockExchange
  | unlockWake
  | ensureFailed (site : Ensure)
  deriving DecidableEq

/-- A call or the next operation; a time does not convert or has passed, a wait is interrupted or
times out. -/
inductive Label where
  | timedlock (timed : Bool)
  | trylock
  | unlock
  | run
  | timeInvalid
  | timePassed
  | interrupt
  | timeout
  deriving DecidableEq

def Label.lock : Label := .timedlock false

section Steps

variable {τ : Type*} [DecidableEq τ] (kind : Kind) (ids : ThreadIds τ)
  (t : τ) (mem : LockFields τ) (own : LockThread Pc)

def futexWait (timed : Bool) (expected : UInt32) : LockFields τ × LockThread Pc :=
  if mem.state = expected then
    ({ mem with asleep := insert t mem.asleep }, { own with pc := .timedlockWait timed })
  else (mem, { own with pc := .timedlock timed 0 })

def timedlockIteration (timed : Bool) (expected : UInt32) : LockFields τ × LockThread Pc :=
  if expected = 0 then
    if mem.state = 0 then
      ({ mem with state := ids.tid t ||| waitersBit }, { own with pc := .timedlockAcquired })
    else (mem, { own with pc := .timedlock timed mem.state })
  else if expected &&& ownerMask = ids.tid t then
    if kind ≠ .recursive then (mem, { own with pc := .outside (some .edeadlk) })
    else
      ({ mem with recursion := mem.recursion + 1 }, ⟨.outside none, own.depth + 1⟩)
  else if HasWaiters expected then
    if timed then (mem, { own with pc := .timedlockTimeout expected })
    else futexWait t mem own timed expected
  else if mem.state = expected then
    ({ mem with state := expected ||| waitersBit },
      { own with pc := .timedlock timed (expected ||| waitersBit) })
  else (mem, { own with pc := .timedlock timed mem.state })

def trylockCheck (expected : UInt32) : LockFields τ × LockThread Pc :=
  if expected = 0 then
    if mem.state = 0 then
      ({ mem with state := ids.tid t }, { own with pc := .trylockAcquired })
    else (mem, { own with pc := .outside (some .ebusy) })
  else if expected &&& ownerMask = ids.tid t then
    if kind ≠ .recursive then (mem, { own with pc := .outside (some .ebusy) })
    else
      ({ mem with recursion := mem.recursion + 1 }, ⟨.outside none, own.depth + 1⟩)
  else (mem, { own with pc := .outside (some .ebusy) })

def setRecursion (site : Ensure) : LockFields τ × LockThread Pc :=
  if mem.recursion ≠ 0 then (mem, { own with pc := .ensureFailed site })
  else ({ mem with recursion := 1 }, ⟨.outside none, own.depth + 1⟩)

def unlockOwner : LockFields τ × LockThread Pc :=
  if kind ≠ .normal ∧ mem.state &&& ownerMask ≠ ids.tid t then
    (mem, { own with pc := .outside (some .eperm) })
  else (mem, { own with pc := .unlockLevel })

def unlockLevel : LockFields τ × LockThread Pc :=
  if kind = .recursive then
    if mem.recursion = 0 then
      (mem, { own with pc := .ensureFailed .unlockRecursion })
    else if mem.recursion - 1 ≠ 0 then
      ({ mem with recursion := mem.recursion - 1 }, ⟨.outside none, own.depth - 1⟩)
    else
      ({ mem with recursion := mem.recursion - 1 }, ⟨.unlockExchange, own.depth - 1⟩)
  else ({ mem with recursion := 0 }, ⟨.unlockExchange, own.depth - 1⟩)

def exchange : LockFields τ × LockThread Pc :=
  if HasWaiters mem.state then
    ({ mem with state := 0 }, { own with pc := .unlockWake })
  else ({ mem with state := 0 }, { own with pc := .outside none })

def threadStep (label : Label) : Option (LockFields τ × LockThread Pc) :=
  match own.pc, label with
  | .outside _, .timedlock timed => some (mem, { own with pc := .timedlock timed 0 })
  | .outside _, .trylock => some (mem, { own with pc := .trylock })
  | .outside _, .unlock =>
    if own.depth = 0 then none else some (mem, { own with pc := .unlock })
  | .timedlock timed expected, .run =>
    some (timedlockIteration kind ids t mem own timed expected)
  | .timedlockTimeout _, .timeInvalid =>
    some (mem, { own with pc := .outside (some .einval) })
  | .timedlockTimeout _, .timePassed =>
    some (mem, { own with pc := .outside (some .etimedout) })
  | .timedlockTimeout expected, .run => some (futexWait t mem own true expected)
  | .timedlockWait timed, .run =>
    if t ∈ mem.asleep then none
    else some (mem, { own with pc := .timedlock timed 0 })
  | .timedlockWait timed, .interrupt =>
    some ({ mem with asleep := mem.asleep.erase t }, { own with pc := .timedlock timed 0 })
  | .timedlockWait true, .timeout =>
    some ({ mem with asleep := mem.asleep.erase t }, { own with pc := .outside (some .etimedout) })
  | .timedlockAcquired, .run => some (setRecursion mem own .timedlockRecursion)
  | .trylock, .run => some (mem, { own with pc := .trylockLoaded mem.state })
  | .trylockLoaded expected, .run =>
    some (trylockCheck kind ids t mem own expected)
  | .trylockAcquired, .run => some (setRecursion mem own .trylockRecursion)
  | .unlock, .run => some (unlockOwner kind ids t mem own)
  | .unlockLevel, .run => some (unlockLevel kind mem own)
  | .unlockExchange, .run => some (exchange mem own)
  | .unlockWake, .run =>
    some ({ mem with asleep := ∅ }, { own with pc := .outside none })
  | _, _ => none

end Steps

def system {τ : Type*} [DecidableEq τ] (kind : Kind) (ids : ThreadIds τ) :
    ThreadSystem τ (LockFields τ) (LockThread Pc) Label where
  initialShared mem := mem = ⟨0, 0, ∅⟩
  initialLocal _ own := own = ⟨.outside none, 0⟩
  threadStep t label mem own := threadStep kind ids t mem own label

def Holds (own : LockThread Pc) : Prop :=
  0 < own.depth ∨ own.pc = .timedlockAcquired ∨ own.pc = .trylockAcquired ∨ own.pc = .unlockExchange

/-- The unmatched locks after a step: a call that locks returns zero, or an unlock. -/
def tally (own : LockThread Pc) (next : Pc) : Nat :=
  match own.pc, next with
  | .timedlock _ _, .outside none | .timedlockAcquired, .outside none
  | .trylockLoaded _, .outside none | .trylockAcquired, .outside none => own.depth + 1
  | .unlockLevel, .outside none | .unlockLevel, .unlockExchange => own.depth - 1
  | _, _ => own.depth

def NestsBelowLimit {τ : Type*} (kind : Kind)
    (s : ThreadState τ (LockFields τ) (LockThread Pc)) (label : τ × Label) : Prop :=
  (∃ timed, label.2 = .timedlock timed) ∨ label.2 = .trylock → kind = .recursive →
    (s.threads label.1).depth + 1 < 2 ^ 32

end Mlibc.ThreadMutex
