import Mathlib.Algebra.BigOperators.Fin
import Mlibc.RwLock

/-! # Invariants of the reader-writer lock -/

namespace Mlibc.RwLock

open FutexWord Function Finset

/-- The holder of the mutex, whether it writes, the pending wakes, and the read locks. -/
structure Ghost (τ : Type*) where
  holder : Option τ
  writing : Bool
  wakersM : Set τ
  wakersRc : Set τ
  reads : τ → Nat

def Pc.holdsM : Pc → Bool
  | .mUnlock _ | .tryWriteLoad _ | .writeLoad _ | .writeLoop _ _ | .writeWait _ _
  | .writeSleep _ | .readAdd => true
  | _ => false

def Pc.wakesM : Pc → Bool
  | .mUnlockWake _ => true
  | _ => false

def Pc.wakesRc : Pc → Bool
  | .unlockReadWake => true
  | _ => false

def Known (own : Local) : Prop :=
  match own.pc with
  | .mLockLoop _ _ expected | .mTrylockLoaded _ _ expected =>
    expected ≠ 0 → expected &&& ownerMask ≠ 0
  | .writeLoop _ expected => expected &&& countMask ≠ 0
  | .readAdd => own.writes = false
  | .unlock => 0 < own.reads ∨ own.writes = true
  | .unlockRead expected => 0 < own.reads ∧ expected &&& countMask ≠ 0
  | .ensureFailed _ => False
  | _ => True

/-- What a thread has to do with the mutex and with the two queues. -/
def Pc.duties (pc : Pc) : Bool × Bool × Bool := (pc.holdsM, pc.wakesM, pc.wakesRc)

theorem Pc.duties_eq {pc : Pc} {holds wakes wakesRc : Bool} : pc.duties = (holds, wakes, wakesRc) ↔
      pc.holdsM = holds ∧ pc.wakesM = wakes ∧ pc.wakesRc = wakesRc := by
  simp only [Pc.duties, Prod.mk.injEq]

/-- What holds of the two words. -/
structure SharedInvariant {τ : Type*} [Fintype τ] (ghost : Ghost τ) (mem : Shared τ) : Prop where
  free : ghost.holder = none → mem.m = 0
  held : ghost.holder ≠ none → mem.m &&& ownerMask ≠ 0
  safeM : Protected (HasWaiters mem.m) mem.asleepM ghost.wakersM
  count : CountWord mem.rc (∑ t, ghost.reads t)
  safeRc : Protected (HasWaiters mem.rc) mem.asleepRc ghost.wakersRc
  writing : ghost.writing = true → ghost.holder ≠ none ∧ mem.rc = 0

/-- What holds of one thread. -/
structure LocalInvariant {τ : Type*} (ghost : Ghost τ) (t : τ) (own : Local) : Prop where
  holds : own.writes = true ∨ own.pc.holdsM = true ↔ ghost.holder = some t
  writes : own.writes = true ↔ ghost.holder = some t ∧ ghost.writing = true
  wakesM : own.pc.wakesM = true ↔ t ∈ ghost.wakersM
  wakesRc : own.pc.wakesRc = true ↔ t ∈ ghost.wakersRc
  reads : own.reads = ghost.reads t
  known : Known own

/-- A change of the ghost data that another thread does not notice. -/
structure Tolerated {τ : Type*} (ghost newGhost : Ghost τ) (other : τ) : Prop where
  holder : newGhost.holder = some other ↔ ghost.holder = some other
  writing : newGhost.holder = some other → newGhost.writing = ghost.writing
  wakersM : other ∈ newGhost.wakersM ↔ other ∈ ghost.wakersM
  wakersRc : other ∈ newGhost.wakersRc ↔ other ∈ ghost.wakersRc
  reads : newGhost.reads other = ghost.reads other

variable {τ : Type*} {ghost : Ghost τ} {t : τ} {mem : Shared τ} {own : Local}

theorem LocalInvariant.tolerate {newGhost : Ghost τ} (localInv : LocalInvariant ghost t own)
    (tolerated : Tolerated ghost newGhost t) :
    LocalInvariant newGhost t own where
  holds := localInv.holds.trans tolerated.holder.symm
  writes := by
    rw [localInv.writes, ← tolerated.holder]
    exact and_congr_right fun holds => by rw [tolerated.writing holds]
  wakesM := localInv.wakesM.trans tolerated.wakersM.symm
  wakesRc := localInv.wakesRc.trans tolerated.wakersRc.symm
  reads := localInv.reads.trans tolerated.reads.symm
  known := localInv.known

/-- What holds when the thread takes a step. -/
structure Invariants [Fintype τ] (ghost : Ghost τ) (t : τ) (mem : Shared τ) (own : Local) :
    Prop where
  shared : SharedInvariant ghost mem
  own : LocalInvariant ghost t own

def Preserves [Fintype τ] (ghost : Ghost τ) (t : τ) (outcome : Shared τ × Local) : Prop :=
  ∃ newGhost, SharedInvariant newGhost outcome.1 ∧ LocalInvariant newGhost t outcome.2 ∧
    ∀ other, other ≠ t → Tolerated ghost newGhost other

section

variable (localInv : LocalInvariant ghost t own)

include localInv

theorem LocalInvariant.not_writes (free : ghost.holder = none) : own.writes = false := by
  by_contra writes
  have holds := (localInv.writes.mp (by simpa using writes)).1
  rw [free] at holds
  cases holds

theorem LocalInvariant.not_mem_wakersM (notWaking : own.pc.wakesM = false) : t ∉ ghost.wakersM := by
  rw [← localInv.wakesM, notWaking]
  exact Bool.false_ne_true

theorem LocalInvariant.not_mem_wakersRc
    (notWaking : own.pc.wakesRc = false) : t ∉ ghost.wakersRc := by
  rw [← localInv.wakesRc, notWaking]
  exact Bool.false_ne_true

end

variable [Fintype τ]

section Words

variable (sharedInv : SharedInvariant ghost mem)

include sharedInv

theorem SharedInvariant.holder_eq_none (zero : mem.m = 0) : ghost.holder = none := by
  by_contra holds
  have owner := sharedInv.held holds
  rw [zero] at owner
  exact owner rfl

theorem SharedInvariant.owner_ne_zero (taken : mem.m ≠ 0) : mem.m &&& ownerMask ≠ 0 :=
  sharedInv.held fun none => taken (sharedInv.free none)

theorem SharedInvariant.rc_ne_zero (localInv : LocalInvariant ghost t own)
    (reads : 0 < own.reads) : mem.rc ≠ 0 := by
  rw [Ne, sharedInv.count.eq_zero_iff, sum_eq_zero_iff]
  intro none
  have zero := none t (mem_univ t)
  rw [← localInv.reads] at zero
  omega

theorem SharedInvariant.not_writing (readers : mem.rc ≠ 0) : ghost.writing = false := by
  by_contra writing
  exact readers (sharedInv.writing (by simpa using writing)).2

end Words

/-! ### Moves -/

variable (inv : Invariants ghost t mem own)

section Moves

include inv

variable {pc : Pc}

theorem Invariants.known_at (atPc : own.pc = pc) : Known { own with pc := pc } := by
  rw [← atPc]
  exact inv.own.known

theorem Invariants.words {after : Shared τ} (words : SharedInvariant ghost after)
    (same : pc.duties = own.pc.duties) (known : Known { own with pc := pc }) :
    Preserves ghost t (after, { own with pc := pc }) := by
  obtain ⟨holdsM, wakesM, wakesRc⟩ := Pc.duties_eq.mp same
  refine ⟨ghost, words, ⟨?_, inv.own.writes, ?_, ?_, inv.own.reads, known⟩,
    fun _ _ => ⟨.rfl, fun _ => rfl, .rfl, .rfl, rfl⟩⟩
  · simp only [holdsM, inv.own.holds]
  · simp only [wakesM, inv.own.wakesM]
  · simp only [wakesRc, inv.own.wakesRc]

/-- The thread goes on without a change of its duties. -/
theorem Invariants.move (same : pc.duties = own.pc.duties) (known : Known { own with pc := pc }) :
    Preserves ghost t (mem, { own with pc := pc }) :=
  inv.words inv.shared same known

theorem Invariants.acquire (free : mem.m = 0) {word : UInt32} (owner : word &&& ownerMask ≠ 0)
    (idle : own.pc.duties = (false, false, false))
    (busy : pc.duties = (true, false, false))
    (known : own.writes = false → Known { own with pc := pc }) :
    Preserves ghost t ({ mem with m := word }, { own with pc := pc }) := by
  obtain ⟨_, notWakingM, notWakingRc⟩ := Pc.duties_eq.mp idle
  obtain ⟨holdsM, stillNotWakingM, stillNotWakingRc⟩ := Pc.duties_eq.mp busy
  have noHolder := inv.shared.holder_eq_none free
  have notWrites := inv.own.not_writes noHolder
  have notWriting : ghost.writing = false := by
    by_contra writing
    exact (inv.shared.writing (by simpa using writing)).1 noHolder
  have safeM : Protected (HasWaiters word) mem.asleepM ghost.wakersM := by
    have before := inv.shared.safeM
    rw [free] at before
    exact before.of_imp fun bit => absurd bit not_hasWaiters_zero
  refine ⟨{ ghost with holder := some t },
    ⟨(fun none => by cases none), fun _ => owner, safeM, inv.shared.count, inv.shared.safeRc, ?_⟩,
    ⟨iff_of_true (.inr holdsM) rfl, ?_, ?_, ?_, inv.own.reads, known notWrites⟩, ?_⟩
  · intro writing
    rw [notWriting] at writing
    cases writing
  · simp [notWrites, notWriting]
  · simp [stillNotWakingM, inv.own.not_mem_wakersM notWakingM]
  · simp [stillNotWakingRc, inv.own.not_mem_wakersRc notWakingRc]
  · intro other apart
    refine ⟨?_, fun _ => rfl, .rfl, .rfl, rfl⟩
    rw [noHolder]
    exact iff_of_false (fun same => apart (Option.some.inj same).symm) (by simp)

theorem Invariants.release (busy : own.pc.duties = (true, false, false)) {wakes : Bool}
    (next : pc.duties = (false, wakes, false)) (wakesM : wakes = true ↔ HasWaiters mem.m)
    (known : Known { own with pc := pc, writes := false }) :
    Preserves ghost t ({ mem with m := 0 }, { own with pc := pc, writes := false }) := by
  obtain ⟨holdsM, notWakingM, notWakingRc⟩ := Pc.duties_eq.mp busy
  obtain ⟨leavesM, rfl, stillNotWakingRc⟩ := Pc.duties_eq.mp next
  have holder := inv.own.holds.mp (.inr holdsM)
  have notWaker := inv.own.not_mem_wakersM notWakingM
  set wakers := {waker | waker ∈ ghost.wakersM ∨ waker = t ∧ HasWaiters mem.m}
  have safeM : Protected (HasWaiters 0) mem.asleepM wakers :=
    (inv.shared.safeM.wakers_mono fun _ member => .inl member).release t fun bit => .inr ⟨rfl, bit⟩
  refine ⟨{ ghost with holder := none, writing := false, wakersM := wakers },
    ⟨fun _ => rfl, fun some => absurd rfl some, safeM, inv.shared.count, inv.shared.safeRc,
      fun writing => by cases writing⟩,
    ⟨by simp [leavesM], by simp, ?_, ?_, inv.own.reads, known⟩, ?_⟩
  · simp [wakesM, wakers, notWaker]
  · simp [stillNotWakingRc, inv.own.not_mem_wakersRc notWakingRc]
  intro other apart
  refine ⟨?_, (fun none => by cases none), by simp [wakers, apart], .rfl, rfl⟩
  rw [holder]
  exact iff_of_false (by simp) fun same => apart (Option.some.inj same).symm

theorem Invariants.wakeM (wakes : own.pc.duties = (false, true, false))
    (idle : pc.duties = (false, false, false)) (known : Known { own with pc := pc }) :
    Preserves ghost t ({ mem with asleepM := ∅ }, { own with pc := pc }) := by
  obtain ⟨holdsM, _, wakesRc⟩ := Pc.duties_eq.mp wakes
  obtain ⟨leavesM, doneM, notWakingRc⟩ := Pc.duties_eq.mp idle
  refine ⟨{ ghost with wakersM := ghost.wakersM \ {t} }, { inv.shared with safeM := .empty },
    ⟨?_, inv.own.writes, by simp [doneM], ?_, inv.own.reads, known⟩, ?_⟩
  · simp only [leavesM, ← holdsM, inv.own.holds]
  · simp only [notWakingRc, ← wakesRc, inv.own.wakesRc]
  · intro other apart
    exact ⟨.rfl, fun _ => rfl, by simp [apart], .rfl, rfl⟩

theorem Invariants.wakeRc (wakes : own.pc.duties = (false, false, true))
    (idle : pc.duties = (false, false, false)) (known : Known { own with pc := pc }) :
    Preserves ghost t ({ mem with asleepRc := ∅ }, { own with pc := pc }) := by
  obtain ⟨holdsM, wakesM, _⟩ := Pc.duties_eq.mp wakes
  obtain ⟨leavesM, notWakingM, doneRc⟩ := Pc.duties_eq.mp idle
  refine ⟨{ ghost with wakersRc := ghost.wakersRc \ {t} }, { inv.shared with safeRc := .empty },
    ⟨?_, inv.own.writes, ?_, by simp [doneRc], inv.own.reads, known⟩, ?_⟩
  · simp only [leavesM, ← holdsM, inv.own.holds]
  · simp only [notWakingM, ← wakesM, inv.own.wakesM]
  · intro other apart
    exact ⟨.rfl, fun _ => rfl, .rfl, by simp [apart], rfl⟩

theorem Invariants.write (busy : own.pc.duties = (true, false, false)) (noReaders : mem.rc = 0)
    {result : Option Errno} :
    Preserves ghost t (mem, { own with pc := .outside result, writes := true }) := by
  obtain ⟨holdsM, notWakingM, notWakingRc⟩ := Pc.duties_eq.mp busy
  have holder := inv.own.holds.mp (.inr holdsM)
  refine ⟨{ ghost with writing := true },
    { inv.shared with writing := fun _ => ⟨by simp [holder], noReaders⟩ },
    ⟨by simp [holder], by simp [holder], ?_, ?_, inv.own.reads, trivial⟩, ?_⟩
  · simp [Pc.wakesM, inv.own.not_mem_wakersM notWakingM]
  · simp [Pc.wakesRc, inv.own.not_mem_wakersRc notWakingRc]
  intro other apart
  refine ⟨.rfl, ?_, .rfl, .rfl, rfl⟩
  intro otherHolds
  rw [holder] at otherHolds
  exact absurd (Option.some.inj otherHolds).symm apart

end Moves

/-! ### Readers -/

variable [DecidableEq τ]

theorem sum_update (reads : τ → Nat) (t : τ) (value : Nat) :
    (∑ other, update reads t value other) + reads t = (∑ other, reads other) + value := by
  rw [sum_update_of_mem (mem_univ t), ← sum_sdiff (subset_univ {t}), sum_singleton]
  omega

include inv

theorem Invariants.readAdd (atPc : own.pc = .readAdd)
    (room : (mem.rc &&& countMask).toNat + 1 < 2 ^ 31) :
    Preserves ghost t ({ mem with rc := mem.rc + 1 },
      { own with pc := .mUnlock (.returns none), reads := own.reads + 1 }) := by
  have notWrites : own.writes = false := inv.known_at atPc
  have holder := inv.own.holds.mp (.inr (by rw [atPc]; rfl))
  have notWriting : ghost.writing = false := by
    by_contra writing
    have writes := inv.own.writes.mpr ⟨holder, by simpa using writing⟩
    rw [notWrites] at writes
    cases writes
  have total := sum_update ghost.reads t (ghost.reads t + 1)
  rw [inv.shared.count.value] at room
  have added := inv.shared.count.add_one room
  set reads := update ghost.reads t (ghost.reads t + 1)
  refine ⟨{ ghost with reads := reads },
    { inv.shared with count := ?_, safeRc := inv.shared.safeRc.of_imp added.2.mpr, writing := ?_ },
    ⟨?_, inv.own.writes, ?_, ?_, ?_, trivial⟩, ?_⟩
  · have same : ∑ other, reads other = (∑ other, ghost.reads other) + 1 := by omega
    simp only [same]
    exact added.1
  · intro writing
    rw [notWriting] at writing
    cases writing
  · simp [Pc.holdsM, holder]
  · rw [← inv.own.wakesM, atPc]
    rfl
  · rw [← inv.own.wakesRc, atPc]
    rfl
  · simp [reads, inv.own.reads]
  · intro other apart
    exact ⟨.rfl, fun _ => rfl, .rfl, .rfl, update_of_ne apart _ _⟩

theorem Invariants.readRemove (reads : 0 < own.reads) {rc : UInt32}
    (removed : CountWord rc ((∑ other, ghost.reads other) - 1))
    (idle : own.pc.duties = (false, false, false)) {pc : Pc} {wakes : Bool}
    (next : pc.duties = (false, false, wakes))
    (kept : HasWaiters mem.rc → HasWaiters rc ∨ wakes = true)
    (known : Known { own with pc := pc, reads := own.reads - 1 }) :
    Preserves ghost t ({ mem with rc := rc }, { own with pc := pc, reads := own.reads - 1 }) := by
  obtain ⟨holdsM, wakesM, notWakingRc⟩ := Pc.duties_eq.mp idle
  obtain ⟨leavesM, notWakingM, rfl⟩ := Pc.duties_eq.mp next
  have notWriting := inv.shared.not_writing (inv.shared.rc_ne_zero inv.own reads)
  have notWaker := inv.own.not_mem_wakersRc notWakingRc
  have total := sum_update ghost.reads t (ghost.reads t - 1)
  have own' := inv.own.reads
  set remaining := update ghost.reads t (ghost.reads t - 1)
  set wakers := {waker | waker ∈ ghost.wakersRc ∨ waker = t ∧ pc.wakesRc = true}
  refine ⟨{ ghost with reads := remaining, wakersRc := wakers },
    { inv.shared with count := ?_, safeRc := ?_, writing := ?_ },
    ⟨?_, inv.own.writes, ?_, ?_, ?_, known⟩, ?_⟩
  · have same : ∑ other, remaining other = (∑ other, ghost.reads other) - 1 := by omega
    simp only [same]
    exact removed
  · intro sleeps
    rcases inv.shared.safeRc sleeps with bit | ⟨waker, member⟩
    · exact (kept bit).imp_right fun wakes => ⟨t, .inr ⟨rfl, wakes⟩⟩
    · exact .inr ⟨waker, .inl member⟩
  · intro writing
    rw [notWriting] at writing
    cases writing
  · simp only [leavesM, ← holdsM, inv.own.holds]
  · simp only [notWakingM, ← wakesM, inv.own.wakesM]
  · simp [wakers, notWaker]
  · simp [remaining, inv.own.reads]
  · intro other apart
    exact ⟨.rfl, fun _ => rfl, .rfl, by simp [wakers, apart], update_of_ne apart _ _⟩

end Mlibc.RwLock
