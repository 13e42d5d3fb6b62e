import Mathlib.Data.Finset.Basic
import Mathlib.Data.Set.Basic
import Mathlib.Data.Nat.Bitwise

/-! # Futex words with a waiters bit -/

namespace Mlibc

namespace FutexWord

def waitersBit : UInt32 := (1 : UInt32) <<< 31

def ownerMask : UInt32 := ((1 : UInt32) <<< 30) - 1

def HasWaiters (word : UInt32) : Prop := word &&& waitersBit ≠ 0

instance (word : UInt32) : Decidable (HasWaiters word) :=
  inferInstanceAs (Decidable (_ ≠ _))

theorem and_or_distrib_right (first second mask : UInt32) :
    (first ||| second) &&& mask = (first &&& mask) ||| (second &&& mask) := by
  apply UInt32.toNat_inj.mp
  exact Nat.and_or_distrib_right ..

@[simp]
theorem owner_or_waitersBit (word : UInt32) :
    (word ||| waitersBit) &&& ownerMask = word &&& ownerMask := by
  rw [and_or_distrib_right, show waitersBit &&& ownerMask = 0 from rfl, UInt32.or_zero]

@[simp]
theorem hasWaiters_or_waitersBit (word : UInt32) : HasWaiters (word ||| waitersBit) := by
  rw [HasWaiters, and_or_distrib_right, Ne, UInt32.or_eq_zero_iff]
  exact fun zero => absurd zero.2 (by decide)

@[simp]
theorem not_hasWaiters_zero : ¬ HasWaiters 0 := by decide

theorem owner_of_lt {tid : UInt32} (bound : tid.toNat < 2 ^ 30) : tid &&& ownerMask = tid := by
  apply UInt32.toNat_inj.mp
  rw [UInt32.toNat_and, show ownerMask.toNat = 2 ^ 30 - 1 from rfl,
    Nat.and_two_pow_sub_one_eq_mod, Nat.mod_eq_of_lt bound]

end FutexWord

/-! ### Sleeping threads -/

def Protected {τ : Type*} (bitSet : Prop) (asleep : Finset τ) (wakers : Set τ) : Prop :=
  asleep.Nonempty → bitSet ∨ wakers.Nonempty

namespace Protected

variable {τ : Type*} {bitSet : Prop} {asleep : Finset τ} {wakers : Set τ}

theorem of_bit (bit : bitSet) : Protected bitSet asleep wakers := fun _ => .inl bit

theorem empty : Protected bitSet (∅ : Finset τ) wakers :=
  fun ne => absurd ne Finset.not_nonempty_empty

variable (safe : Protected bitSet asleep wakers)

include safe

theorem erase [DecidableEq τ] (t : τ) : Protected bitSet (asleep.erase t) wakers :=
  fun ne => safe (ne.mono (Finset.erase_subset t asleep))

theorem of_imp {after : Prop} (kept : bitSet → after) : Protected after asleep wakers :=
  fun ne => (safe ne).imp_left kept

theorem release {after : Prop} (t : τ) (duty : bitSet → t ∈ wakers) :
    Protected after asleep wakers :=
  fun ne => .inr ((safe ne).elim (fun bit => ⟨t, duty bit⟩) id)

theorem wakers_mono {more : Set τ} (subset : wakers ⊆ more) : Protected bitSet asleep more :=
  fun ne => (safe ne).imp_right (Set.Nonempty.mono subset)

end Protected

end Mlibc
