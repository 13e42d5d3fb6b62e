import Mlibc.RwLockInvariant

/-! # Steps of the reader-writer lock -/

namespace Mlibc.RwLock

open FutexWord

theorem owner_lockedWord (excl : Bool) : lockedWord excl &&& ownerMask ≠ 0 := by
  cases excl <;> decide

variable {τ : Type*} [Fintype τ]

section Steps

variable {ghost : Ghost τ} {t : τ} {mem : Shared τ} {own : Local} (inv : Invariants ghost t mem own)
include inv

variable {pc : Pc} {expected : UInt32} {timed : Bool}

theorem mLockIteration_preserves {excl : Bool} (atPc : own.pc = .mLockLoop excl timed expected) :
    Preserves ghost t (mLockIteration mem own excl timed expected) := by
  have known := inv.known_at atPc
  unfold mLockIteration
  split_ifs with taken noOwner waiters unchanged free isExcl
  · exact absurd noOwner (known taken)
  · exact inv.move (atPc ▸ rfl) trivial
  · have announced : SharedInvariant ghost { mem with m := expected ||| waitersBit } := by
      refine { inv.shared with
        free := ?_, held := ?_, safeM := .of_bit (hasWaiters_or_waitersBit expected) }
      · intro none
        exact absurd (inv.shared.free none) (by rwa [unchanged])
      · intro _
        simp only [owner_or_waitersBit]
        exact noOwner
    exact inv.words announced (atPc ▸ rfl) trivial
  · exact inv.move (atPc ▸ rfl) inv.shared.owner_ne_zero
  · exact inv.acquire free (owner_lockedWord excl) (atPc ▸ rfl) rfl fun _ => trivial
  · exact inv.acquire free (owner_lockedWord excl) (atPc ▸ rfl) rfl id
  · exact inv.move (atPc ▸ rfl) inv.shared.owner_ne_zero

theorem mFutexWait_preserves [DecidableEq τ] {excl : Bool}
    (atPc : own.pc = .mLockWait excl timed expected) :
    Preserves ghost t (mFutexWait t mem own excl timed expected) := by
  unfold mFutexWait
  split_ifs with unchanged
  · have bit : HasWaiters mem.m := by
      rw [unchanged]
      exact hasWaiters_or_waitersBit expected
    refine inv.words ?_ (atPc ▸ rfl) trivial
    exact { inv.shared with safeM := .of_bit bit }
  · exact inv.move (atPc ▸ rfl) fun zero => absurd rfl zero

theorem leaveM_preserves [DecidableEq τ] (same : pc.duties = own.pc.duties)
    (known : Known { own with pc := pc }) :
    Preserves ghost t (leaveM t mem own pc) := by
  refine inv.words ?_ same known
  exact { inv.shared with safeM := inv.shared.safeM.erase t }

theorem leaveRc_preserves [DecidableEq τ] (same : pc.duties = own.pc.duties)
    (known : Known { own with pc := pc }) :
    Preserves ghost t (leaveRc t mem own pc) := by
  refine inv.words ?_ same known
  exact { inv.shared with safeRc := inv.shared.safeRc.erase t }

theorem mTrylockFailed_preserves {excl clock : Bool} (idle : own.pc.duties = (false, false, false))
    (owner : expected &&& ownerMask ≠ 0) :
    Preserves ghost t (mem, mTrylockFailed own excl clock expected) := by
  unfold mTrylockFailed
  rw [if_neg owner]
  split_ifs <;> exact inv.move (idle ▸ rfl) trivial

theorem mTrylockCheck_preserves {excl clock : Bool}
    (atPc : own.pc = .mTrylockLoaded excl clock expected) :
    Preserves ghost t (mTrylockCheck mem own excl clock expected) := by
  have known := inv.known_at atPc
  unfold mTrylockCheck
  split_ifs with fresh free isExcl
  · exact inv.acquire free (owner_lockedWord excl) (atPc ▸ rfl) rfl fun _ => trivial
  · exact inv.acquire free (owner_lockedWord excl) (atPc ▸ rfl) rfl id
  · exact mTrylockFailed_preserves inv (atPc ▸ rfl) (inv.shared.owner_ne_zero free)
  · exact mTrylockFailed_preserves inv (atPc ▸ rfl) (known fresh)

omit [Fintype τ] inv in
theorem AfterUnlock.duties_next (after : AfterUnlock) :
    after.next.duties = (false, false, false) := by
  cases after <;> rfl

omit [Fintype τ] inv in
theorem AfterUnlock.known_next (after : AfterUnlock) (reads : Nat) (writes : Bool) :
    Known ⟨after.next, reads, writes⟩ := by
  cases after <;> trivial

theorem mExchange_preserves {after : AfterUnlock} (atPc : own.pc = .mUnlock after) :
    Preserves ghost t (mExchange mem own after) := by
  have busy : own.pc.duties = (true, false, false) := atPc ▸ rfl
  unfold mExchange
  split_ifs with waiters
  · exact inv.release busy rfl (iff_of_true rfl waiters) trivial
  · exact inv.release busy after.duties_next
      (iff_of_false Bool.false_ne_true waiters) (after.known_next _ _)

theorem tryWriteCheck_preserves {clock : Bool} (atPc : own.pc = .tryWriteLoad clock) :
    Preserves ghost t (mem, tryWriteCheck mem own clock) := by
  unfold tryWriteCheck
  split_ifs with noReaders
  · exact inv.write (atPc ▸ rfl) noReaders
  · exact inv.move (atPc ▸ rfl) trivial
  · exact inv.move (atPc ▸ rfl) trivial

theorem writeCheck_preserves (busy : own.pc.duties = (true, false, false)) :
    Preserves ghost t (mem, writeCheck mem own timed) := by
  unfold writeCheck
  split_ifs with noReaders
  · exact inv.write busy noReaders
  · exact inv.move (busy ▸ rfl) (inv.shared.count.count_ne_zero noReaders)

theorem writeIteration_preserves (atPc : own.pc = .writeLoop timed expected) :
    Preserves ghost t (writeIteration mem own timed expected) := by
  have counts := inv.known_at atPc
  unfold writeIteration
  rw [if_neg counts]
  split_ifs with waiters unchanged
  · exact inv.move (atPc ▸ rfl) trivial
  · subst unchanged
    have readers : mem.rc ≠ 0 := by
      intro zero
      rw [zero] at counts
      exact counts rfl
    have pos : 0 < ∑ other, ghost.reads other :=
      Nat.pos_of_ne_zero fun none => readers (inv.shared.count.eq_zero_iff.mpr none)
    have announced : SharedInvariant ghost { mem with rc := mem.rc ||| waitersBit } := by
      refine ⟨inv.shared.free, inv.shared.held, inv.shared.safeM,
        inv.shared.count.setWaiters pos, .of_bit (hasWaiters_or_waitersBit mem.rc), ?_⟩
      intro writing
      rw [inv.shared.not_writing readers] at writing
      cases writing
    exact inv.words announced (atPc ▸ rfl) trivial
  · exact writeCheck_preserves inv (atPc ▸ rfl)

theorem rcFutexWait_preserves [DecidableEq τ] (atPc : own.pc = .writeWait timed expected) :
    Preserves ghost t (rcFutexWait t mem own timed expected) := by
  unfold rcFutexWait
  split_ifs with unchanged
  · have bit : HasWaiters mem.rc := by
      rw [unchanged]
      exact hasWaiters_or_waitersBit expected
    refine inv.words ?_ (atPc ▸ rfl) trivial
    exact { inv.shared with safeRc := .of_bit bit }
  · exact inv.move (atPc ▸ rfl) trivial

theorem unlockLoad_preserves (atPc : own.pc = .unlock) :
    Preserves ghost t (mem, unlockLoad mem own) := by
  have holds := inv.known_at atPc
  unfold unlockLoad
  split_ifs with noReaders
  · have writes : own.writes = true := by
      rcases holds with reads | writes
      · exact absurd noReaders (inv.shared.rc_ne_zero inv.own reads)
      · exact writes
    have holder := (inv.own.writes.mp writes).1
    refine ⟨ghost, inv.shared, ⟨iff_of_true (.inl writes) holder, inv.own.writes, ?_, ?_,
      inv.own.reads, trivial⟩, fun _ _ => ⟨.rfl, fun _ => rfl, .rfl, .rfl, rfl⟩⟩
    · rw [← inv.own.wakesM, atPc]
      rfl
    · rw [← inv.own.wakesRc, atPc]
      rfl
  · have reads : 0 < own.reads := by
      rcases holds with reads | writes
      · exact reads
      · have writing := (inv.own.writes.mp writes).2
        exact absurd (inv.shared.writing writing).2 noReaders
    exact inv.move (atPc ▸ rfl) ⟨reads, inv.shared.count.count_ne_zero noReaders⟩

section

variable (atPc : own.pc = .unlockRead expected)

include atPc

theorem unlockReadAgain_preserves :
    Preserves ghost t (mem, { own with pc := .unlockRead mem.rc }) := by
  have known := inv.known_at atPc
  exact inv.move (atPc ▸ rfl)
    ⟨known.1, inv.shared.count.count_ne_zero (inv.shared.rc_ne_zero inv.own known.1)⟩

theorem unlockReadIteration_preserves [DecidableEq τ] :
    Preserves ghost t (unlockReadIteration mem own expected) := by
  rcases inv.known_at atPc with ⟨reads, counts⟩
  have idle : own.pc.duties = (false, false, false) := atPc ▸ rfl
  unfold unlockReadIteration
  rw [if_neg counts]
  split_ifs with unchanged last
  · subst unchanged
    have one : ∑ other, ghost.reads other = 1 := by
      rw [← inv.shared.count.value, last.1]
      rfl
    refine inv.readRemove reads ?_ idle rfl (fun _ => .inr rfl) trivial
    rw [one]
    exact .zero
  · subst unchanged
    have lowered := inv.shared.count.lower counts last
    exact inv.readRemove reads lowered.1 idle rfl (fun bit => .inl (lowered.2.mpr bit)) trivial
  · exact unlockReadAgain_preserves inv atPc

theorem unlockReadRetry_preserves : Preserves ghost t (mem, unlockReadRetry mem own expected) := by
  have known := inv.known_at atPc
  unfold unlockReadRetry
  rw [if_neg known.2]
  exact unlockReadAgain_preserves inv atPc

end

theorem threadStep_preserves [DecidableEq τ] {label : Label} {outcome : Shared τ × Local}
    (room : own.pc = .readAdd → label = .run → (mem.rc &&& countMask).toNat + 1 < 2 ^ 31)
    (steps : threadStep t mem own label = some outcome) :
    Preserves ghost t outcome := by
  rcases own with ⟨pc, reads, writes⟩
  have fresh : (0 : UInt32) ≠ 0 → (0 : UInt32) &&& ownerMask ≠ 0 := fun zero => absurd rfl zero
  unfold threadStep at steps
  dsimp only at steps
  split at steps
  all_goals try cases steps
  iterate 6 exact inv.move rfl trivial
  · split_ifs at steps with unheld
    cases steps
    refine inv.move rfl ?_
    rw [not_and_or] at unheld
    exact unheld.imp Nat.pos_of_ne_zero (by simp)
  · exact inv.move rfl inv.shared.owner_ne_zero
  · exact mLockIteration_preserves inv rfl
  iterate 2 exact inv.move rfl trivial
  · exact mFutexWait_preserves inv rfl
  · split_ifs at steps with sleeps
    cases steps
    exact inv.move rfl fresh
  · exact leaveM_preserves inv rfl fresh
  · exact leaveM_preserves inv rfl trivial
  · exact inv.move rfl inv.shared.owner_ne_zero
  · exact mTrylockCheck_preserves inv rfl
  · exact mExchange_preserves inv rfl
  · next after =>
    exact inv.wakeM rfl after.duties_next (after.known_next _ _)
  · exact tryWriteCheck_preserves inv rfl
  · exact writeCheck_preserves inv rfl
  · exact writeIteration_preserves inv rfl
  iterate 2 exact inv.move rfl trivial
  · exact rcFutexWait_preserves inv rfl
  · split_ifs at steps with sleeps
    cases steps
    exact inv.move rfl trivial
  iterate 2 exact leaveRc_preserves inv rfl trivial
  · exact inv.readAdd rfl (room rfl rfl)
  · exact unlockLoad_preserves inv rfl
  · exact unlockReadIteration_preserves inv rfl
  · exact unlockReadRetry_preserves inv rfl
  · exact inv.wakeRc rfl rfl trivial

end Steps

end Mlibc.RwLock
