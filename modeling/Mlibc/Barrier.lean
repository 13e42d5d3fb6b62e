import Mathlib.Data.Nat.Bitwise
import Mlibc.TransitionSystem

/-!
# Barriers

`pthread_barrier_wait` of `options/posix/generic/pthread.cpp`; every atomic operation and futex
call is one step.
-/

namespace Mlibc.Barrier

/-- The count, and the number of bits that hold the waiters (`frg::ceil_log2`). -/
structure Config where
  count : UInt32
  genShift : Nat
  positive : 0 < count.toNat
  large : count.toNat ≤ 2 ^ genShift
  least : ∀ shift, count.toNat ≤ 2 ^ shift → genShift ≤ shift

inductive Result where
  | serialThread
  | zero
  deriving DecidableEq

/-- The fields of the barrier, the threads that sleep on `__mlibc_seq`, and the
record of the generations. -/
structure Shared (τ : Type*) where
  waiting : UInt32
  inside : UInt32
  seq : UInt32
  asleep : Finset τ
  completed : Nat
  entered : Nat → Nat
  results : Nat → List Result

/-- Where a thread is in the code, with the variables `old` and `gen`.  `generation` is the one that
it has entered. -/
inductive Pc where
  | outside
  | enter
  | load
  | loop (old : UInt32)
  | storeSeq (gen : UInt32) (generation : Nat)
  | wakeSeq (generation : Nat)
  | waitLoad (gen : UInt32) (generation : Nat)
  | waitFutex (gen : UInt32) (generation : Nat) (current : UInt32)
  | waitSleep (gen : UInt32) (generation : Nat)
  | leave (result : Result) (generation : Nat)
  | leaveWake (result : Result) (generation : Nat)
  | undefined
  deriving DecidableEq

/-- A call or the next operation; a weak compare-exchange fails; a signal interrupts a wait. -/
inductive Label where
  | wait
  | run
  | fail
  | interrupt
  deriving DecidableEq

def Config.mask (cfg : Config) : UInt32 :=
  if cfg.genShift < 32 then (1 : UInt32) <<< UInt32.ofNat cfg.genShift - 1
  else ~~~0

def Config.gen (cfg : Config) (old : UInt32) : UInt32 :=
  if cfg.genShift < 32 then old >>> UInt32.ofNat cfg.genShift else 0

def Config.nextGenStart (cfg : Config) (old : UInt32) : Option UInt32 :=
  if cfg.genShift < 32 then
    some ((cfg.gen old + 1) <<< UInt32.ofNat cfg.genShift)
  else none

def Config.IsLast (cfg : Config) (old : UInt32) : Prop :=
  (old &&& cfg.mask) + 1 = cfg.count

instance (cfg : Config) (old : UInt32) : Decidable (cfg.IsLast old) :=
  inferInstanceAs (Decidable (_ = _))

section Steps

variable {τ : Type*} [DecidableEq τ] (cfg : Config) (t : τ) (mem : Shared τ)

def enterGeneration : Nat → Nat :=
  Function.update mem.entered mem.completed (mem.entered mem.completed + 1)

def returns (result : Result) (generation : Nat) : Shared τ × Pc :=
  ({ mem with results :=
      Function.update mem.results generation (result :: mem.results generation) },
    .outside)

def iteration (old : UInt32) : Shared τ × Pc :=
  if cfg.IsLast old then
    match cfg.nextGenStart old with
    | none => (mem, .undefined)
    | some nextGenStart =>
      if mem.waiting = old then
        ({ mem with
            waiting := nextGenStart
            completed := mem.completed + 1
            entered := enterGeneration mem },
          .storeSeq (cfg.gen old) mem.completed)
      else (mem, .loop mem.waiting)
  else if mem.waiting = old then
    ({ mem with waiting := old + 1, entered := enterGeneration mem },
      .waitLoad (cfg.gen old) mem.completed)
  else (mem, .loop mem.waiting)

def checkSeq (gen : UInt32) (generation : Nat) : Shared τ × Pc :=
  if 0 < (mem.seq - gen).toInt32 then (mem, .leave .zero generation)
  else (mem, .waitFutex gen generation mem.seq)

def futexWait (gen : UInt32) (generation : Nat) (current : UInt32) : Shared τ × Pc :=
  if mem.seq = current then
    ({ mem with asleep := insert t mem.asleep }, .waitSleep gen generation)
  else (mem, .waitLoad gen generation)

def leaveInside (result : Result) (generation : Nat) : Shared τ × Pc :=
  if mem.inside = 1 then
    ({ mem with inside := mem.inside - 1 }, .leaveWake result generation)
  else returns { mem with inside := mem.inside - 1 } result generation

def threadStep (pc : Pc) (label : Label) : Option (Shared τ × Pc) :=
  match pc, label with
  | .outside, .wait => some (mem, .enter)
  | .enter, .run => some ({ mem with inside := mem.inside + 1 }, .load)
  | .load, .run => some (mem, .loop mem.waiting)
  | .loop old, .run => some (iteration cfg mem old)
  | .loop _, .fail => some (mem, .loop mem.waiting)
  | .storeSeq gen generation, .run =>
    some ({ mem with seq := gen + 1 }, .wakeSeq generation)
  | .wakeSeq generation, .run =>
    some ({ mem with asleep := ∅ }, .leave .serialThread generation)
  | .waitLoad gen generation, .run => some (checkSeq mem gen generation)
  | .waitFutex gen generation current, .run =>
    some (futexWait t mem gen generation current)
  | .waitSleep gen generation, .run =>
    if t ∈ mem.asleep then none else some (mem, .waitLoad gen generation)
  | .waitSleep gen generation, .interrupt =>
    some ({ mem with asleep := mem.asleep.erase t }, .waitLoad gen generation)
  | .leave result generation, .run => some (leaveInside mem result generation)
  | .leaveWake result generation, .run => some (returns mem result generation)
  | _, _ => none

end Steps

def system (τ : Type*) [DecidableEq τ] (cfg : Config) : ThreadSystem τ (Shared τ) Pc Label where
  initialShared mem := mem = ⟨0, 0, 0, ∅, 0, fun _ => 0, fun _ => []⟩
  initialLocal _ pc := pc = .outside
  threadStep t label mem pc := threadStep cfg t mem pc label

def Serial (generation : Nat) : Pc → Prop
  | .storeSeq _ own | .wakeSeq own | .leave .serialThread own
  | .leaveWake .serialThread own => own = generation
  | _ => False

def Left (generation : Nat) : Pc → Prop
  | .storeSeq _ own | .wakeSeq own | .leave _ own | .leaveWake _ own => own = generation
  | _ => False

def Pc.old : Pc → Option UInt32
  | .loop old => some old
  | _ => none

/-- No bits are lost when a thread computes the start of the next generation. -/
def GenerationFits {τ : Type*} (cfg : Config)
    (s : ThreadState τ (Shared τ) Pc) (label : τ × Label) : Prop :=
  label.2 = .run → cfg.count ≠ 1 → ∀ old ∈ (s.threads label.1).old,
    cfg.IsLast old → ((cfg.gen old).toNat + 1) * 2 ^ cfg.genShift < 2 ^ 32

end Mlibc.Barrier
