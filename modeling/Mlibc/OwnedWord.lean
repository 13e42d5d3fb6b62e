import Mlibc.FutexWord

/-! # Futex words that name their owner -/

namespace Mlibc

open FutexWord

/-- Thread ids as the kernel hands them out: distinct, nonzero and below the
two topmost bits of a word. -/
structure ThreadIds (τ : Type*) where
  tid : τ → UInt32
  injective : Function.Injective tid
  nonzero : ∀ t, tid t ≠ 0
  bound : ∀ t, (tid t).toNat < 2 ^ 30

theorem ThreadIds.fresh {τ : Type*} (ids : ThreadIds τ) {t : τ} {conclusion : Prop}
    (zero : (0 : UInt32) &&& ownerMask = ids.tid t) : conclusion :=
  absurd zero.symm (ids.nonzero t)

def ThreadIds.two : ThreadIds Bool where
  tid t := if t then 2 else 1
  injective first second same := by cases first <;> cases second <;> simp_all
  nonzero t := by cases t <;> decide
  bound t := by cases t <;> decide

/-- The holder, and the threads that have a wake pending. -/
structure LockGhost (τ : Type*) where
  holder : Option τ
  wakers : Set τ

/-- The word names the holder, and no wake-up is lost. -/
structure OwnedWord {τ : Type*} (ids : ThreadIds τ) (ghost : LockGhost τ) (word : UInt32)
    (asleep : Finset τ) : Prop where
  free : ghost.holder = none → word = 0
  held : ∀ t, ghost.holder = some t → word &&& ownerMask = ids.tid t
  safe : Protected (HasWaiters word) asleep ghost.wakers

namespace OwnedWord

variable {τ : Type*} {ids : ThreadIds τ} {ghost : LockGhost τ} {word : UInt32}
  {asleep : Finset τ} {t : τ}

section

variable (owned : OwnedWord ids ghost word asleep)

include owned

theorem word_ne_zero (holds : ghost.holder = some t) : word ≠ 0 := by
  rintro rfl
  have owner := owned.held t holds
  exact ids.nonzero t owner.symm

theorem holder_eq_none (zero : word = 0) : ghost.holder = none := by
  cases holds : ghost.holder with
  | none => rfl
  | some t => exact absurd zero (owned.word_ne_zero holds)

theorem holder_of_owner (owner : word &&& ownerMask = ids.tid t) : ghost.holder = some t := by
  cases holds : ghost.holder with
  | none =>
    rw [owned.free holds] at owner
    exact absurd owner.symm (ids.nonzero t)
  | some other =>
    rw [owned.held other holds] at owner
    rw [ids.injective owner]

end

theorem owner_tid : ids.tid t &&& ownerMask = ids.tid t := owner_of_lt (ids.bound t)

theorem acquire (owned : OwnedWord ids ghost 0 asleep) {taken : UInt32}
    (owner : taken &&& ownerMask = ids.tid t) :
    OwnedWord ids { ghost with holder := some t } taken asleep where
  free none := by cases none
  held other holds := by
    cases holds
    exact owner
  safe := owned.safe.of_imp fun bit => absurd bit not_hasWaiters_zero

variable (owned : OwnedWord ids ghost word asleep)

include owned

theorem setWaiters (taken : word ≠ 0) : OwnedWord ids ghost (word ||| waitersBit) asleep where
  free none := absurd (owned.free none) taken
  held other holds := by rw [owner_or_waitersBit, owned.held other holds]
  safe := .of_bit (hasWaiters_or_waitersBit word)

theorem sleep [DecidableEq τ] (bit : HasWaiters word) :
    OwnedWord ids ghost word (insert t asleep) where
  __ := owned
  safe := .of_bit bit

theorem leave [DecidableEq τ] (t : τ) : OwnedWord ids ghost word (asleep.erase t) where
  __ := owned
  safe := owned.safe.erase t

theorem release (t : τ) {wakers : Set τ} (more : ghost.wakers ⊆ wakers)
    (duty : HasWaiters word → t ∈ wakers) :
    OwnedWord ids ⟨none, wakers⟩ 0 asleep where
  free _ := rfl
  held other holds := by cases holds
  safe := (owned.safe.wakers_mono more).release t duty

theorem wake (wakers : Set τ) : OwnedWord ids { ghost with wakers := wakers } word ∅ where
  __ := owned
  safe := .empty

end OwnedWord

end Mlibc
