import Mlibc.ThreadMutexSafety

/-! # What the functions of a mutex return -/

namespace Mlibc.ThreadMutex

open FutexWord Option

def Lockable (kind : Kind) (depth : Nat) : Prop :=
  (kind = .recursive → depth + 1 < 2 ^ 32) ∧ (kind ≠ .recursive → depth = 0)

def Unlocking (kind : Kind) (own : LockThread Pc) : Prop :=
  match own.pc with
  | .unlock | .unlockLevel => True
  | .unlockExchange | .unlockWake | .outside none => Lockable kind own.depth
  | _ => False

def Locking (kind : Kind) (own : LockThread Pc) : Prop :=
  match own.pc with
  | .timedlock false _ | .timedlockWait false | .timedlockAcquired =>
    Lockable kind own.depth
  | .outside none => 0 < own.depth
  | _ => False

section Steps

variable {τ : Type*} {kind : Kind} {ids : ThreadIds τ} {ghost : LockGhost τ} {t : τ}
  {mem : LockFields τ} {pc : Pc} {depth : Nat} {outcome : LockFields τ × LockThread Pc}

theorem lockable_sub_one (localInv : (code kind ids).LocalInvariant ghost t mem ⟨pc, depth⟩)
    (pos : 0 < depth) : Lockable kind (depth - 1) := by
  have level : _ = depth := localInv.recursion rfl (localInv.holds.mp (.inl pos))
  have bound := mem.recursion.toNat_lt
  constructor
  · omega
  · exact fun plain => Nat.sub_eq_zero_of_le (localInv.single (by simpa using plain))

theorem unlocking_step [DecidableEq τ] {own : LockThread Pc}
    (inv : (code kind ids).Invariants ids ghost t mem own)
    (unlocking : Unlocking kind own)
    (running : ∀ result, own.pc ≠ .outside result) {label : Label}
    (steps : threadStep kind ids t mem own label = some outcome) :
    Unlocking kind outcome.2 := by
  rcases own with ⟨pc, depth⟩
  have known := inv.own.known
  obtain rfl : label = .run := by
    cases pc <;> cases label <;> simp_all [threadStep, Unlocking]
  cases pc with
  | unlock =>
    have owner := inv.shared.owned.held t (inv.own.holds.mp (.inl known))
    simp only [threadStep, some.injEq] at steps
    rw [unlockOwner, if_neg fun failed => failed.2 owner] at steps
    subst steps
    trivial
  | unlockLevel =>
    have holder := inv.own.holds.mp (.inl known)
    have lockable := lockable_sub_one inv.own known
    simp only [threadStep, some.injEq] at steps
    unfold unlockLevel at steps
    rw [if_neg (inv.own.recursion_ne_zero rfl holder known)] at steps
    split_ifs at steps <;> subst steps <;> exact lockable
  | unlockExchange =>
    simp only [threadStep, some.injEq] at steps
    unfold exchange at steps
    split_ifs at steps <;> subst steps <;> exact unlocking
  | unlockWake =>
    cases steps
    exact unlocking
  | outside result => exact absurd rfl (running result)
  | _ => cases unlocking

theorem locking_iteration [DecidableEq τ] {expected : UInt32}
    (localInv : (code kind ids).LocalInvariant ghost t mem
      ⟨.timedlock false expected, depth⟩) (lockable : Lockable kind depth) :
    Locking kind (timedlockIteration kind ids t mem ⟨.timedlock false expected, depth⟩
      false expected).2 := by
  unfold timedlockIteration
  split_ifs with fresh free mine notRecursive waiters isTimed unchanged
  · exact lockable
  · exact lockable
  · have holds := localInv.holds.mpr (localInv.known.2 mine)
    simp [LockCode.Holds, lockable.2 notRecursive] at holds
  · exact Nat.succ_pos _
  · cases isTimed
  · unfold futexWait
    split_ifs <;> exact lockable
  · exact lockable
  · exact lockable

theorem locking_step [DecidableEq τ] {own : LockThread Pc}
    (localInv : (code kind ids).LocalInvariant ghost t mem own)
    (locking : Locking kind own)
    (running : ∀ result, own.pc ≠ .outside result) {label : Label}
    (steps : threadStep kind ids t mem own label = some outcome) :
    Locking kind outcome.2 := by
  rcases own with ⟨pc, depth⟩
  cases pc with
  | timedlock timed expected =>
    cases timed with
    | true => cases locking
    | false =>
      obtain rfl : label = .run := by
        cases label <;> simp [threadStep] at steps ⊢
      cases steps
      exact locking_iteration localInv locking
  | timedlockWait timed =>
    cases timed with
    | true => cases locking
    | false =>
      cases label with
      | run =>
        simp only [threadStep] at steps
        split_ifs at steps
        cases steps
        exact locking
      | interrupt =>
        cases steps
        exact locking
      | _ => cases steps
  | timedlockAcquired =>
    obtain rfl : label = .run := by
      cases label <;> simp [threadStep] at steps ⊢
    have holder := localInv.holds.mp (.inr (.inl rfl))
    have zero := localInv.recursion_eq_zero rfl holder localInv.known
    simp only [threadStep, some.injEq] at steps
    rw [setRecursion, if_neg (not_not.mpr zero)] at steps
    subst steps
    exact Nat.succ_pos _
  | outside result => exact absurd rfl (running result)
  | _ => cases locking

end Steps

end Mlibc.ThreadMutex
