import Mlibc.CountWord
import Mlibc.Errno
import Mlibc.TransitionSystem

/-!
# Semaphores

`options/posix/generic/semaphore.cpp`; every atomic operation and futex call is one step.
-/

namespace Mlibc.Semaphore

open FutexWord

def semValueMax : UInt32 := 0x7FFFFFFF

def eoverflow : Errno := .other 75

/-- Where a thread is in the code.  Outside it remembers the error of its last call. -/
inductive Pc where
  | outside (err : Option Errno)
  | wait (timed : Bool) (s : UInt32)
  | timeout (s : UInt32)
  | futexWait (timed : Bool) (s : UInt32)
  | asleep (timed : Bool) (s : UInt32)
  | postLoad
  | post (s : UInt32)
  | wake
  | tryLoad
  | tryTake (s : UInt32)
  deriving DecidableEq

/-- A call or the next operation; a compare-exchange or a wait fails for no reason, a signal comes,
the time is invalid or over. -/
inductive Label where
  | semWait
  | semClockwait
  | semPost
  | semTrywait
  | run
  | spurious
  | interrupt
  | invalidTime
  | timeOver
  deriving DecidableEq

/-- The word, the kernel's queue, and a record of the posts and the waits that succeeded. -/
structure Shared (τ : Type*) where
  word : UInt32
  asleep : Finset τ
  posts : Nat
  waits : Nat

def semInit (initialCount : UInt32) : Except Errno UInt32 :=
  if initialCount > semValueMax then .error .einval else .ok initialCount

def count (word : UInt32) : Nat := (word &&& countMask).toNat

section Steps

variable {τ : Type*} [DecidableEq τ] (t : τ) (mem : Shared τ)

def waitLoop (timed : Bool) (s : UInt32) : Shared τ × Pc :=
  if s &&& countMask = 0 then
    if mem.word = s then
      ({ mem with word := waitersBit }, if timed then .timeout s else .futexWait timed s)
    else (mem, .wait timed mem.word)
  else if mem.word = s then
    ({ mem with word := s - 1, waits := mem.waits + 1 }, .outside none)
  else (mem, .wait timed mem.word)

/-- The loop of `sem_post`; `spurious` if its weak compare-exchange fails although the word is as
expected. -/
def postLoop (spurious : Bool) (s : UInt32) : Shared τ × Pc :=
  if (s &&& countMask) + 1 > semValueMax then (mem, .outside (some eoverflow))
  else if mem.word = s ∧ spurious = false then
    ({ mem with
        word := ((s &&& countMask) + 1) ||| (s &&& waitersBit)
        posts := mem.posts + 1 },
      if HasWaiters s then .wake else .outside none)
  else (mem, .post mem.word)

def threadStep (label : Label) (pc : Pc) : Option (Shared τ × Pc) :=
  match pc, label with
  | .outside _, .semWait => some (mem, .wait false 0)
  | .outside _, .semClockwait => some (mem, .wait true 0)
  | .outside _, .semPost => some (mem, .postLoad)
  | .outside _, .semTrywait => some (mem, .tryLoad)
  | .wait timed s, .run => some (waitLoop mem timed s)
  | .timeout s, .run => some (mem, .futexWait true s)
  | .timeout _, .invalidTime => some (mem, .outside (some .einval))
  | .timeout _, .timeOver => some (mem, .outside (some .etimedout))
  | .futexWait timed s, .run =>
    if mem.word = s then
      some ({ mem with asleep := insert t mem.asleep }, .asleep timed s)
    else some (mem, .wait timed s)
  | .asleep timed s, .run =>
    if t ∈ mem.asleep then none else some (mem, .wait timed s)
  | .asleep timed s, .spurious =>
    some ({ mem with asleep := mem.asleep.erase t }, .wait timed s)
  | .asleep _ _, .interrupt =>
    some ({ mem with asleep := mem.asleep.erase t }, .outside (some .eintr))
  | .asleep true _, .timeOver =>
    some ({ mem with asleep := mem.asleep.erase t }, .outside (some .etimedout))
  | .postLoad, .run => some (mem, .post mem.word)
  | .post s, .run => some (postLoop mem false s)
  | .post s, .spurious => some (postLoop mem true s)
  | .wake, .run => some ({ mem with asleep := ∅ }, .outside none)
  | .tryLoad, .run =>
    if HasWaiters mem.word ∨ mem.word = 0 then some (mem, .outside (some .eagain))
    else some (mem, .tryTake mem.word)
  | .tryTake s, .run =>
    if mem.word = s then
      some ({ mem with word := s - 1, waits := mem.waits + 1 }, .outside none)
    else some (mem, .tryLoad)
  | _, _ => none

def system (τ : Type*) [DecidableEq τ] (initialCount : UInt32) :
    ThreadSystem τ (Shared τ) Pc Label where
  initialShared mem :=
    ∃ word, semInit initialCount = .ok word ∧ mem = ⟨word, ∅, 0, 0⟩
  initialLocal _ pc := pc = .outside none
  threadStep t label mem pc := threadStep t mem label pc

abbrev State (τ : Type*) := ThreadState τ (Shared τ) Pc

end Steps

/-! ### What a step does -/

theorem count_eq (word : UInt32) : count word = word.toNat % 2 ^ 31 := and_countMask_toNat word

variable {word : UInt32}

theorem count_eq_zero : count word = 0 ↔ word &&& countMask = 0 := by
  rw [count, ← UInt32.toNat_inj, UInt32.toNat_zero]

theorem take_toNat (pos : 0 < count word) :
    (word - 1).toNat = word.toNat - 1 := by
  rw [count_eq] at pos
  have one : (1 : UInt32) ≤ word := by
    rw [UInt32.le_iff_toNat_le, UInt32.toNat_one]
    omega
  exact UInt32.toNat_sub_of_le _ _ one

theorem post_toNat (room : ¬(word &&& countMask) + 1 > semValueMax) :
    (((word &&& countMask) + 1) ||| (word &&& waitersBit)).toNat = word.toNat + 1 ∧
      count word + 1 < 2 ^ 31 := by
  have low := and_countMask_toNat word
  have raised : ((word &&& countMask) + 1).toNat = word.toNat % 2 ^ 31 + 1 := by
    rw [UInt32.toNat_add, UInt32.toNat_one]
    omega
  have small : word.toNat % 2 ^ 31 + 1 < 2 ^ 31 := by
    rw [gt_iff_lt, UInt32.lt_iff_toNat_lt, show semValueMax.toNat = 2 ^ 31 - 1 from rfl] at room
    omega
  refine ⟨?_, by rwa [count_eq]⟩
  rw [UInt32.toNat_or, raised, and_waitersBit_toNat, Nat.or_comm,
    ← Nat.two_pow_add_eq_or_of_lt small]
  omega

def Knows (word : UInt32) : Pc → Prop
  | .timeout s | .futexWait _ s | .asleep _ s => count s = 0 ∧ HasWaiters word
  | .tryTake s => 0 < count s
  | .wait _ _ | .outside _ | .postLoad | .post _ | .wake | .tryLoad => True

/-- What a step does to the word, to the queue and to the waiting threads. -/
inductive Effect {τ : Type*} (mem : Shared τ) (pc : Pc) : Shared τ → Pc → Prop where
  | quiet {queue : Finset τ} {next : Pc} (notWake : pc ≠ .wake) (fewer : queue ⊆ mem.asleep)
      (knows : Knows mem.word next) (refuses : next = .outside (some .eagain) →
        HasWaiters mem.word ∨ count mem.word = 0) :
      Effect mem pc { mem with asleep := queue } next
  | sleeps {queue : Finset τ} {timed : Bool} (notWake : pc ≠ .wake)
      (none : count mem.word = 0) (announced : HasWaiters mem.word) :
      Effect mem pc { mem with asleep := queue } (.asleep timed mem.word)
  | announces {next : Pc} (notWake : pc ≠ .wake) (none : count mem.word = 0)
      (knows : Knows waitersBit next) (accepts : next ≠ .outside (some .eagain)) :
      Effect mem pc { mem with word := waitersBit } next
  | takes (notWake : pc ≠ .wake) (some : 0 < count mem.word) :
      Effect mem pc { mem with word := mem.word - 1, waits := mem.waits + 1 }
        (.outside none)
  | posts {word : UInt32} (notWake : pc ≠ .wake) (raised : word.toNat = mem.word.toNat + 1)
      (room : count mem.word + 1 < 2 ^ 31) :
      Effect mem pc { mem with word := word, posts := mem.posts + 1 }
        (if HasWaiters mem.word then .wake else .outside none)
  | wakes : Effect mem pc { mem with asleep := ∅ } (.outside none)

/-- By the step a call of `sem_wait`, `sem_clockwait` or `sem_trywait` returns 0. -/
def Pc.acquires (pc next : Pc) : Bool :=
  match pc with
  | .outside _ | .postLoad | .post _ | .wake => false
  | _ => next = .outside none

/-- By the step a call of `sem_post` publishes its unit. -/
def Pc.publishes (pc next : Pc) : Bool :=
  match pc with
  | .post _ => next = .wake ∨ next = .outside none
  | _ => false

section Effects

variable {τ : Type*} {t : τ} {mem after : Shared τ} {pc next : Pc}

/-- The record counts the units that are acquired and published, and nothing else. -/
theorem recorded_of_step [DecidableEq τ] {label : Label}
    (steps : threadStep t mem label pc = some (after, next)) :
    after.waits = mem.waits + (pc.acquires next).toNat ∧
      after.posts = mem.posts + (pc.publishes next).toNat := by
  unfold threadStep waitLoop postLoop at steps
  split at steps <;> (try split_ifs at steps) <;> cases steps <;> exact ⟨rfl, rfl⟩

theorem Effect.unchanged (notWake : pc ≠ .wake) (knows : Knows mem.word next)
    (accepts : next ≠ .outside (some .eagain)) : Effect mem pc mem next :=
  .quiet notWake (Finset.Subset.refl _) knows (fun refused => absurd refused accepts)

theorem effect_waitLoop (mem : Shared τ) (timed : Bool) (s : UInt32) :
    Effect mem (.wait timed s) (waitLoop mem timed s).1
      (waitLoop mem timed s).2 := by
  unfold waitLoop
  split_ifs with noUnit same isTimed same
  · subst same
    have zero := count_eq_zero.mpr noUnit
    exact .announces (by simp) zero ⟨zero, by decide⟩ (by simp)
  · subst same
    have zero := count_eq_zero.mpr noUnit
    exact .announces (by simp) zero ⟨zero, by decide⟩ (by simp)
  · exact .unchanged (by simp) trivial (by simp)
  · subst same
    exact .takes (by simp) (Nat.pos_of_ne_zero fun zero => noUnit (count_eq_zero.mp zero))
  · exact .unchanged (by simp) trivial (by simp)

theorem effect_postLoop (mem : Shared τ) (spurious : Bool) (s : UInt32) :
    Effect mem (.post s) (postLoop mem spurious s).1
      (postLoop mem spurious s).2 := by
  unfold postLoop
  by_cases full : (s &&& countMask) + 1 > semValueMax
  · rw [if_pos full]
    exact .unchanged (by simp) trivial (by simp [eoverflow])
  rw [if_neg full]
  by_cases same : mem.word = s ∧ spurious = false
  · rw [if_pos same]
    obtain ⟨rfl, -⟩ := same
    obtain ⟨raised, room⟩ := post_toNat full
    exact .posts (by simp) raised room
  · rw [if_neg same]
    exact .unchanged (by simp) trivial (by simp)

theorem count_pos_of_clear {word : UInt32} (clear : ¬(HasWaiters word ∨ word = 0)) :
    0 < count word := by
  rw [hasWaiters_iff, ← UInt32.toNat_inj, UInt32.toNat_zero] at clear
  rw [count_eq]
  omega

theorem effect_of_step [DecidableEq τ] {label : Label} (knows : Knows mem.word pc)
    (steps : threadStep t mem label pc = some (after, next)) :
    Effect mem pc after next := by
  unfold threadStep at steps
  split at steps
  case h_5 timed s =>
    have effect := effect_waitLoop mem timed s
    rw [Option.some.inj steps] at effect
    exact effect
  case h_6 s =>
    cases steps
    exact .unchanged (by simp) knows (by simp)
  case h_9 timed s =>
    split_ifs at steps with same <;> cases steps
    · subst same
      exact .sleeps (by simp) knows.1 knows.2
    · exact .unchanged (by simp) trivial (by simp)
  case h_10 =>
    split_ifs at steps
    cases steps
    exact .unchanged (by simp) trivial (by simp)
  case h_11 | h_12 | h_13 =>
    cases steps
    exact .quiet (by simp) (Finset.erase_subset t mem.asleep) trivial (by simp)
  case h_15 s =>
    have effect := effect_postLoop mem false s
    rw [Option.some.inj steps] at effect
    exact effect
  case h_16 s =>
    have effect := effect_postLoop mem true s
    rw [Option.some.inj steps] at effect
    exact effect
  case h_17 =>
    cases steps
    exact .wakes
  case h_18 =>
    split_ifs at steps with refused <;> cases steps
    · refine .quiet (by simp) (Finset.Subset.refl _) trivial fun _ => refused.imp_right ?_
      intro zero
      rw [zero]
      rfl
    · exact .unchanged (by simp) (count_pos_of_clear refused) (by simp)
  case h_19 s =>
    split_ifs at steps with same <;> cases steps
    · subst same
      exact .takes (by simp) knows
    · exact .unchanged (by simp) trivial (by simp)
  case h_20 => cases steps
  all_goals
    cases steps
    exact .unchanged (by simp) trivial (by simp)

theorem Effect.clear (effect : Effect mem pc after next) (units : 0 < count mem.word)
    (clear : ¬HasWaiters mem.word) :
    ¬HasWaiters after.word ∧ next ≠ .outside (some .eagain) := by
  cases effect with
  | quiet _ _ _ refuses =>
    exact ⟨clear, fun refused => (refuses refused).elim clear fun zero => absurd zero units.ne'⟩
  | sleeps | wakes => exact ⟨clear, by simp⟩
  | announces _ zero => exact absurd zero units.ne'
  | takes =>
    rw [hasWaiters_iff] at clear ⊢
    rw [take_toNat units]
    exact ⟨by omega, by simp⟩
  | posts _ raised room =>
    rw [count_eq] at room
    rw [hasWaiters_iff] at clear ⊢
    rw [raised, if_neg (by rwa [hasWaiters_iff])]
    exact ⟨by omega, by simp⟩

end Effects

end Mlibc.Semaphore
