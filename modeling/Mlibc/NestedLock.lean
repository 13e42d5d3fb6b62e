import Mlibc.OwnedWord
import Mlibc.TransitionSystem

/-! # Locks with an owner word and a recursion level -/

namespace Mlibc

open FutexWord

/-- The words of the lock, and the threads that sleep on the first one. -/
structure LockFields (τ : Type*) where
  state : UInt32
  recursion : UInt32
  asleep : Finset τ

/-- The local state of a thread, with the number of its successful locks that it
has not unlocked yet. -/
structure LockThread (Pc : Type*) where
  pc : Pc
  depth : Nat
  deriving DecidableEq

/-- What the invariants have to know of the code of a lock. -/
structure LockCode (τ Pc : Type*) where
  /-- The recursion level counts the locks of the holder. -/
  counted : Bool
  /-- The holder can take the lock again. -/
  nests : Bool
  /-- A thread holds the lock before its call returns, or after it has given up
  its last level. -/
  Critical : Pc → Prop
  /-- A thread has released the lock and still has to wake. -/
  Waking : Pc → Prop
  /-- What a thread knows, given whether it holds the lock and its depth. -/
  Known : (holds : Prop) → τ → Nat → Pc → Prop

namespace LockCode

variable {τ Pc : Type*} (code : LockCode τ Pc) (ids : ThreadIds τ) (ghost : LockGhost τ)

def Holds (own : LockThread Pc) : Prop := 0 < own.depth ∨ code.Critical own.pc

@[simp]
def Quiet (pc : Pc) : Prop := ¬ code.Critical pc ∧ ¬ code.Waking pc

/-- What holds of one thread. -/
structure LocalInvariant (t : τ) (fields : LockFields τ) (own : LockThread Pc) : Prop where
  holds : code.Holds own ↔ ghost.holder = some t
  waking : code.Waking own.pc ↔ t ∈ ghost.wakers
  recursion : code.counted = true → ghost.holder = some t → fields.recursion.toNat = own.depth
  single : code.nests = false → own.depth ≤ 1
  known : code.Known (ghost.holder = some t) t own.depth own.pc

/-- What holds of the words. -/
structure SharedInvariant (fields : LockFields τ) : Prop where
  owned : OwnedWord ids ghost fields.state fields.asleep
  recursion : code.counted = true → ghost.holder = none → fields.recursion = 0

/-- What holds when the thread takes a step. -/
structure Invariants (t : τ) (fields : LockFields τ) (own : LockThread Pc) : Prop where
  shared : code.SharedInvariant ids ghost fields
  own : code.LocalInvariant ghost t fields own

/-- What a step of another thread leaves alone. -/
structure Tolerated (newGhost : LockGhost τ) (fields newFields : LockFields τ)
    (other : τ) : Prop where
  holder : newGhost.holder = some other ↔ ghost.holder = some other
  wakers : other ∈ newGhost.wakers ↔ other ∈ ghost.wakers
  recursion : ghost.holder = some other → newFields.recursion = fields.recursion

def Preserves (t : τ) (fields : LockFields τ) (outcome : LockFields τ × LockThread Pc) : Prop :=
  ∃ newGhost, code.SharedInvariant ids newGhost outcome.1 ∧
    code.LocalInvariant newGhost t outcome.1 outcome.2 ∧
    ∀ other, other ≠ t → Tolerated ghost newGhost fields outcome.1 other

variable {code ids ghost} {t : τ} {fields : LockFields τ} {own : LockThread Pc}

section

variable (localInv : code.LocalInvariant ghost t fields own)

include localInv

theorem LocalInvariant.tolerate {newGhost : LockGhost τ} {newFields : LockFields τ}
    (tolerated : Tolerated ghost newGhost fields newFields t) :
    code.LocalInvariant newGhost t newFields own where
  holds := localInv.holds.trans tolerated.holder.symm
  waking := localInv.waking.trans tolerated.wakers.symm
  recursion isCounted holds := by
    have before := tolerated.holder.mp holds
    rw [tolerated.recursion before]
    exact localInv.recursion isCounted before
  single := localInv.single
  known := by
    rw [tolerated.holder]
    exact localInv.known

theorem LocalInvariant.depth_eq_zero (free : ghost.holder = none) : own.depth = 0 := by
  by_contra pos
  have holds := localInv.holds.mp (.inl (by omega))
  rw [free] at holds
  cases holds

theorem LocalInvariant.not_mem_wakers (notWaking : ¬ code.Waking own.pc) : t ∉ ghost.wakers :=
  fun member => notWaking (localInv.waking.mpr member)

variable (isCounted : code.counted = true) (holder : ghost.holder = some t)

include isCounted holder

theorem LocalInvariant.recursion_eq_zero (depthZero : own.depth = 0) : fields.recursion = 0 := by
  apply UInt32.toNat_inj.mp
  rw [localInv.recursion isCounted holder, depthZero]
  rfl

theorem LocalInvariant.recursion_ne_zero (pos : 0 < own.depth) : fields.recursion ≠ 0 := by
  intro zero
  have level := localInv.recursion isCounted holder
  rw [zero] at level
  exact absurd level (by simp; omega)

theorem LocalInvariant.recursion_sub_one
    (pos : 0 < own.depth) : (fields.recursion - 1).toNat = own.depth - 1 := by
  have level := localInv.recursion isCounted holder
  have one : (1 : UInt32).toNat = 1 := rfl
  rw [UInt32.toNat_sub_of_le, level, one]
  rw [UInt32.le_iff_toNat_le, level]
  exact pos

end

section Moves

variable (inv : code.Invariants ids ghost t fields own)
include inv

variable {pc : Pc}

theorem Invariants.word {word : UInt32} {asleep : Finset τ}
    (owned : OwnedWord ids ghost word asleep) (quiet : code.Quiet own.pc) (still : code.Quiet pc)
    (known : code.Known (ghost.holder = some t) t own.depth pc) :
    code.Preserves ids ghost t fields (⟨word, fields.recursion, asleep⟩, { own with pc := pc }) :=
  ⟨ghost, ⟨owned, inv.shared.recursion⟩,
    ⟨(or_congr_right (iff_of_false still.1 quiet.1)).trans inv.own.holds,
      (iff_of_false still.2 quiet.2).trans inv.own.waking, inv.own.recursion, inv.own.single,
      known⟩,
    fun _ _ => ⟨.rfl, .rfl, fun _ => rfl⟩⟩

theorem Invariants.move (quiet : code.Quiet own.pc) (still : code.Quiet pc)
    (known : code.Known (ghost.holder = some t) t own.depth pc) :
    code.Preserves ids ghost t fields (fields, { own with pc := pc }) :=
  inv.word inv.shared.owned quiet still known

variable {after : LockThread Pc}

theorem Invariants.acquire (free : fields.state = 0) (notWaking : ¬ code.Waking own.pc)
    {taken : UInt32}
    (owner : taken &&& ownerMask = ids.tid t)
    (holds : code.Holds after) (stillQuiet : ¬ code.Waking after.pc)
    (shallow : code.counted = true → after.depth = 0)
    (single : code.nests = false → after.depth ≤ 1)
    (known : ∀ holding, code.Known holding t after.depth after.pc) :
    code.Preserves ids ghost t fields ({ fields with state := taken }, after) := by
  have owned : OwnedWord ids ghost 0 fields.asleep := by
    rw [← free]
    exact inv.shared.owned
  have noHolder := inv.shared.owned.holder_eq_none free
  refine ⟨{ ghost with holder := some t }, ⟨owned.acquire owner, fun _ none => by cases none⟩,
    ⟨iff_of_true holds rfl, ?_, ?_, single, known _⟩, ?_⟩
  · exact iff_of_false stillQuiet (inv.own.not_mem_wakers notWaking)
  · intro isCounted _
    rw [shallow isCounted, inv.shared.recursion isCounted noHolder]
    rfl
  intro other apart
  refine ⟨?_, .rfl, fun _ => rfl⟩
  rw [noHolder]
  exact iff_of_false (fun same => apart (Option.some.inj same).symm) (by simp)

theorem Invariants.acquire_critical (free : fields.state = 0) (notWaking : ¬ code.Waking own.pc)
    {taken : UInt32} (owner : taken &&& ownerMask = ids.tid t) (critical : code.Critical pc)
    (stillQuiet : ¬ code.Waking pc) (known : ∀ holding, code.Known holding t 0 pc) :
    code.Preserves ids ghost t fields ({ fields with state := taken }, { own with pc := pc }) := by
  have depthZero := inv.own.depth_eq_zero (inv.shared.owned.holder_eq_none free)
  refine inv.acquire free notWaking owner (.inr critical) stillQuiet
    (fun _ => depthZero) (fun _ => depthZero.le.trans (Nat.zero_le 1)) fun holding => ?_
  rw [depthZero]
  exact known holding

theorem Invariants.level (holder : ghost.holder = some t) (notWaking : ¬ code.Waking own.pc)
    {recursion : UInt32}
    (holds : code.Holds after) (stillQuiet : ¬ code.Waking after.pc)
    (level : code.counted = true → recursion.toNat = after.depth)
    (single : code.nests = false → after.depth ≤ 1)
    (known : code.Known (ghost.holder = some t) t after.depth after.pc) :
    code.Preserves ids ghost t fields ({ fields with recursion := recursion }, after) := by
  refine ⟨ghost, ⟨inv.shared.owned, fun _ none => ?_⟩,
    ⟨iff_of_true holds holder, ?_, fun isCounted _ => level isCounted, single, known⟩, ?_⟩
  · rw [holder] at none
    cases none
  · exact iff_of_false stillQuiet (inv.own.not_mem_wakers notWaking)
  intro other apart
  refine ⟨.rfl, .rfl, fun otherHolds => ?_⟩
  rw [holder] at otherHolds
  exact absurd (Option.some.inj otherHolds).symm apart

theorem Invariants.increment (nests : code.nests = true) (isCounted : code.counted = true)
    (holder : ghost.holder = some t)
    (notWaking : ¬ code.Waking own.pc) (room : own.depth + 1 < 2 ^ 32)
    (stillQuiet : ¬ code.Waking pc)
    (known : code.Known (ghost.holder = some t) t (own.depth + 1) pc) :
    code.Preserves ids ghost t fields
      ({ fields with recursion := fields.recursion + 1 }, ⟨pc, own.depth + 1⟩) := by
  refine inv.level holder notWaking (.inl (Nat.succ_pos _)) stillQuiet ?_ ?_ known
  · intro _
    rw [UInt32.toNat_add, inv.own.recursion isCounted holder]
    exact Nat.mod_eq_of_lt room
  · intro single
    rw [nests] at single
    cases single

theorem Invariants.first (isCounted : code.counted = true) (holder : ghost.holder = some t)
    (notWaking : ¬ code.Waking own.pc)
    (depthZero : own.depth = 0) (stillQuiet : ¬ code.Waking pc)
    (known : code.Known (ghost.holder = some t) t (own.depth + 1) pc) :
    fields.recursion = 0 ∧ code.Preserves ids ghost t fields
        ({ fields with recursion := 1 }, ⟨pc, own.depth + 1⟩) := by
  refine ⟨inv.own.recursion_eq_zero isCounted holder depthZero, ?_⟩
  refine inv.level holder notWaking (.inl (Nat.succ_pos _)) stillQuiet ?_ ?_ known
  · intro _
    rw [depthZero]
    rfl
  · intro _
    rw [depthZero]

theorem Invariants.last (notWaking : ¬ code.Waking own.pc) (pos : 0 < own.depth)
    {recursion : UInt32} (level : code.counted = true → recursion.toNat = own.depth - 1)
    (last : own.depth - 1 = 0) (critical : code.Critical pc) (stillQuiet : ¬ code.Waking pc)
    (known : ∀ holding, code.Known holding t 0 pc) :
    code.Preserves ids ghost t fields
      ({ fields with recursion := recursion }, ⟨pc, own.depth - 1⟩) := by
  refine inv.level (inv.own.holds.mp (.inl pos)) notWaking
    (.inr critical) stillQuiet level (fun _ => last.le.trans (Nat.zero_le 1)) ?_
  rw [last]
  exact known _

theorem Invariants.unlock (isCounted : code.counted = true) (notWaking : ¬ code.Waking own.pc)
    (pos : 0 < own.depth) {outside : Pc} (outsideQuiet : code.Quiet outside)
    (outsideKnown : ∀ holding depth, code.Known holding t depth outside)
    (critical : code.Critical pc) (stillQuiet : ¬ code.Waking pc)
    (known : ∀ holding, code.Known holding t 0 pc) :
    code.Preserves ids ghost t fields (if fields.recursion - 1 ≠ 0 then
        ({ fields with recursion := fields.recursion - 1 }, ⟨outside, own.depth - 1⟩)
      else ({ fields with recursion := fields.recursion - 1 }, ⟨pc, own.depth - 1⟩)) := by
  have holder := inv.own.holds.mp (.inl pos)
  have lowered := inv.own.recursion_sub_one isCounted holder pos
  split_ifs with last
  · have remaining : 0 < own.depth - 1 := by
      rw [← lowered]
      exact Nat.pos_of_ne_zero fun zero => last (UInt32.toNat_inj.mp zero)
    exact inv.level holder notWaking (.inl remaining) outsideQuiet.2
      (fun _ => lowered) (fun plain => (Nat.sub_le _ _).trans (inv.own.single plain))
      (outsideKnown _ _)
  · refine inv.last notWaking pos (fun _ => lowered) ?_ critical stillQuiet known
    rw [← lowered, not_not.mp last]
    rfl

theorem Invariants.release (holder : ghost.holder = some t) (notWaking : ¬ code.Waking own.pc)
    (depthZero : own.depth = 0)
    (notCritical : ¬ code.Critical pc)
    (waking : code.Waking pc ↔ HasWaiters fields.state)
    (known : ∀ holding, code.Known holding t own.depth pc) :
    code.Preserves ids ghost t fields ({ fields with state := 0 }, { own with pc := pc }) := by
  have notWaker := inv.own.not_mem_wakers notWaking
  set wakers := {waker | waker ∈ ghost.wakers ∨ waker = t ∧ HasWaiters fields.state}
  refine ⟨⟨none, wakers⟩, ⟨inv.shared.owned.release t (fun waker member => .inl member)
      (fun bit => .inr ⟨rfl, bit⟩), fun isCounted _ =>
      inv.own.recursion_eq_zero isCounted holder depthZero⟩,
    ⟨?_, ?_, ?_, inv.own.single, known _⟩, ?_⟩
  · exact iff_of_false (by simp [Holds, depthZero, notCritical]) (by simp)
  · simp [wakers, waking, notWaker]
  · exact fun _ none => by cases none
  intro other apart
  refine ⟨?_, by simp [wakers, apart], fun _ => rfl⟩
  rw [holder]
  exact iff_of_false (by simp) (fun equal => apart (Option.some.inj equal).symm)

theorem Invariants.wake (critical : code.Critical pc ↔ code.Critical own.pc)
    (notWaking : ¬ code.Waking pc)
    (known : code.Known (ghost.holder = some t) t own.depth pc) :
    code.Preserves ids ghost t fields ({ fields with asleep := ∅ }, { own with pc := pc }) := by
  refine ⟨{ ghost with wakers := ghost.wakers \ {t} },
    ⟨inv.shared.owned.wake _, inv.shared.recursion⟩,
    ⟨(or_congr_right critical).trans inv.own.holds, ?_, inv.own.recursion,
      inv.own.single, known⟩, ?_⟩
  · simp [notWaking]
  · intro other apart
    exact ⟨.rfl, by simp [apart], fun _ => rfl⟩

end Moves

/-! ### Runs -/

section Runs

variable [DecidableEq τ] {Label : Type*}
  {system : ThreadSystem τ (LockFields τ) (LockThread Pc) Label}
  {allowed : ThreadState τ (LockFields τ) (LockThread Pc) → τ × Label → Prop}

theorem reachable_invariants {start : Pc}
    (initialShared : ∀ fields, system.initialShared fields → fields = ⟨0, 0, ∅⟩)
    (initialLocal : ∀ t own, system.initialLocal t own → own = ⟨start, 0⟩)
    (notCritical : ¬ code.Critical start) (notWaking : ¬ code.Waking start)
    (known : ∀ t, code.Known False t 0 start)
    (preserved : ∀ ghost s t label outcome, code.Invariants ids ghost t s.shared (s.threads t) →
      allowed s (t, label) →
      system.threadStep t label s.shared (s.threads t) = some outcome →
      code.Preserves ids ghost t s.shared outcome)
    {s : ThreadState τ (LockFields τ) (LockThread Pc)}
    (reach : system.interleaving.ReachableVia allowed s) :
    ∃ ghost, code.SharedInvariant ids ghost s.shared ∧
      ∀ t, code.LocalInvariant ghost t s.shared (s.threads t) := by
  apply ThreadSystem.reachable_invariant _ _ _ _ reach
  · intro fields starts
    rw [initialShared fields starts]
    refine ⟨⟨none, ∅⟩, ⟨⟨fun _ => rfl, by simp, .empty⟩, fun _ _ => rfl⟩, ?_⟩
    intro t own begins
    rw [initialLocal t own begins]
    exact ⟨by simp [Holds, notCritical], by simp [notWaking], by simp, by simp,
      by simpa using known t⟩
  · intro ghost s t label mem own sharedInv localInv meets steps
    obtain ⟨newGhost, newShared, newLocal, others⟩ :=
      preserved ghost s t label (mem, own) ⟨sharedInv, localInv⟩ meets steps
    exact ⟨newGhost, newShared, newLocal, fun other apart otherOwn otherInv =>
      otherInv.tolerate (others other apart)⟩

variable {s : ThreadState τ (LockFields τ) (LockThread Pc)}

omit [DecidableEq τ] in
theorem holder_unique (localInv : ∀ t, code.LocalInvariant ghost t s.shared
      (s.threads t)) (first second : τ)
    (firstHolds : code.Holds (s.threads first))
    (secondHolds : code.Holds (s.threads second)) : first = second := by
  have firstHolder := (localInv first).holds.mp firstHolds
  rw [(localInv second).holds.mp secondHolds] at firstHolder
  exact (Option.some.inj firstHolder).symm

omit [DecidableEq τ] in
theorem wake_pending (sharedInv : code.SharedInvariant ids ghost s.shared)
    (localInv : ∀ t, code.LocalInvariant ghost t s.shared
      (s.threads t)) (sleeps : s.shared.asleep.Nonempty) :
    HasWaiters s.shared.state ∨ ∃ waker, code.Waking (s.threads waker).pc := by
  refine (sharedInv.owned.safe sleeps).imp_right ?_
  rintro ⟨waker, member⟩
  exact ⟨waker, (localInv waker).waking.mpr member⟩

end Runs

end LockCode

end Mlibc
