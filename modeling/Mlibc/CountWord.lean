import Mlibc.FutexWord

/-! # Futex words that count -/

namespace Mlibc

namespace FutexWord

def countMask : UInt32 := ((1 : UInt32) <<< 31) - 1

theorem and_countMask_toNat (word : UInt32) : (word &&& countMask).toNat = word.toNat % 2 ^ 31 := by
  rw [UInt32.toNat_and, show countMask.toNat = 2 ^ 31 - 1 from rfl, Nat.and_two_pow_sub_one_eq_mod]

theorem and_waitersBit_toNat (word : UInt32) :
    (word &&& waitersBit).toNat = 2 ^ 31 * (word.toNat / 2 ^ 31) := by
  have bound := word.toNat_lt
  have small : word.toNat / 2 ^ 31 % 2 = word.toNat / 2 ^ 31 := by omega
  rw [UInt32.toNat_and, show waitersBit.toNat = 2 ^ 31 from rfl, Nat.and_two_pow,
    Nat.testBit_eq_decide_div_mod_eq]
  have cases : word.toNat / 2 ^ 31 = 0 ∨ word.toNat / 2 ^ 31 = 1 := by omega
  rcases cases with clear | set
  · rw [clear]
    rfl
  · rw [set]
    rfl

theorem hasWaiters_iff (word : UInt32) : HasWaiters word ↔ 2 ^ 31 ≤ word.toNat := by
  have bit := and_waitersBit_toNat word
  rw [HasWaiters, Ne, ← UInt32.toNat_inj, UInt32.toNat_zero]
  omega

theorem or_waitersBit_toNat (word : UInt32) :
    (word ||| waitersBit).toNat = 2 ^ 31 + word.toNat % 2 ^ 31 := by
  have bound := word.toNat_lt
  have low : word.toNat % 2 ^ 31 < 2 ^ 31 := Nat.mod_lt _ (by decide)
  have high := Nat.two_pow_add_eq_or_of_lt low 1
  rw [mul_one] at high
  rw [UInt32.toNat_or, show waitersBit.toNat = 2 ^ 31 from rfl]
  by_cases clear : word.toNat < 2 ^ 31
  · rw [Nat.mod_eq_of_lt clear] at high ⊢
    rw [high, Nat.or_comm]
  · have split : word.toNat = 2 ^ 31 + word.toNat % 2 ^ 31 := by omega
    rw [high]
    conv_lhs => rw [split, high, Nat.or_right_comm, Nat.or_self]

theorem lowered_toNat {word : UInt32} (counts : word &&& countMask ≠ 0) :
    ((word &&& ~~~countMask) ||| ((word &&& countMask) - 1)).toNat = word.toNat - 1 := by
  have count := and_countMask_toNat word
  have pos : 1 ≤ word.toNat % 2 ^ 31 := by
    rw [← count, Nat.one_le_iff_ne_zero]
    exact fun zero => counts (UInt32.toNat_inj.mp zero)
  have one : (1 : UInt32) ≤ word &&& countMask := by
    rw [UInt32.le_iff_toNat_le, count]
    exact pos
  have low : word.toNat % 2 ^ 31 - 1 < 2 ^ 31 := by omega
  rw [UInt32.toNat_or, show ~~~countMask = waitersBit from rfl, and_waitersBit_toNat,
    UInt32.toNat_sub_of_le _ _ one, count, UInt32.toNat_one,
    ← Nat.two_pow_add_eq_or_of_lt low]
  omega

end FutexWord

open FutexWord

/-- A word with the given count, whose waiters bit is set only if the count is
positive. -/
structure CountWord (word : UInt32) (count : Nat) : Prop where
  value : (word &&& countMask).toNat = count
  announced : HasWaiters word → 0 < count

namespace CountWord

variable {word : UInt32} {count : Nat}

theorem eq_zero_iff (counts : CountWord word count) : word = 0 ↔ count = 0 := by
  rcases counts with ⟨value, announced⟩
  rw [and_countMask_toNat] at value
  rw [hasWaiters_iff] at announced
  rw [← UInt32.toNat_inj, UInt32.toNat_zero]
  omega

theorem count_ne_zero (counts : CountWord word count) (notZero : word ≠ 0) :
    word &&& countMask ≠ 0 := by
  intro zero
  have value := counts.value
  rw [zero] at value
  exact notZero (counts.eq_zero_iff.mpr value.symm)

theorem zero : CountWord 0 0 := ⟨rfl, fun bit => absurd bit not_hasWaiters_zero⟩

variable (counts : CountWord word count)

include counts

theorem setWaiters (pos : 0 < count) : CountWord (word ||| waitersBit) count where
  value := by
    have value := counts.value
    rw [and_countMask_toNat] at value ⊢
    rw [or_waitersBit_toNat]
    omega
  announced _ := pos

theorem add_one (room : count + 1 < 2 ^ 31) :
    CountWord (word + 1) (count + 1) ∧ (HasWaiters (word + 1) ↔ HasWaiters word) := by
  have value := counts.value
  have bound := word.toNat_lt
  rw [and_countMask_toNat] at value
  have next : (word + 1).toNat = word.toNat + 1 := by
    rw [UInt32.toNat_add, UInt32.toNat_one]
    omega
  refine ⟨⟨?_, fun _ => Nat.succ_pos count⟩, ?_⟩
  · rw [and_countMask_toNat]
    omega
  · rw [hasWaiters_iff, hasWaiters_iff]
    omega

theorem lower (pos : word &&& countMask ≠ 0)
    (notLast : ¬ (word &&& countMask = 1 ∧ HasWaiters word)) :
    CountWord ((word &&& ~~~countMask) ||| ((word &&& countMask) - 1)) (count - 1) ∧
      (HasWaiters ((word &&& ~~~countMask) ||| ((word &&& countMask) - 1)) ↔ HasWaiters word) := by
  have value := counts.value
  rw [Ne, ← UInt32.toNat_inj, value, UInt32.toNat_zero] at pos
  rw [← UInt32.toNat_inj, value] at notLast
  have next := lowered_toNat (fun zero => pos (by rw [← value, zero]; rfl))
  rw [and_countMask_toNat] at value
  have bit : HasWaiters ((word &&& ~~~countMask) ||| ((word &&& countMask) - 1)) ↔
      HasWaiters word := by
    rw [hasWaiters_iff, hasWaiters_iff]
    omega
  refine ⟨⟨?_, ?_⟩, bit⟩
  · rw [and_countMask_toNat]
    omega
  · intro announced
    have more : count ≠ 1 := fun last => notLast ⟨last, bit.mp announced⟩
    omega

end CountWord

end Mlibc
