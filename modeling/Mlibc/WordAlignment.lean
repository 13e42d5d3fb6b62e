import Mathlib.Algebra.Order.Ring.Nat
import Mathlib.Data.Nat.Bitwise

/-!
# Alignments of machine words

An alignment is a word with exactly one bit.
-/

namespace Mlibc

def IsAlignment (align : BitVec 64) : Prop :=
  align ≠ 0 ∧ align &&& (align - 1) = 0

instance (align : BitVec 64) : Decidable (IsAlignment align) :=
  inferInstanceAs (Decidable (_ ∧ _))

namespace IsAlignment

variable {align : BitVec 64}

variable (aligned : IsAlignment align)

include aligned

theorem toNat_pos : 0 < align.toNat := by
  apply Nat.pos_of_ne_zero
  intro zero
  exact aligned.1 (BitVec.eq_of_toNat_eq zero)

theorem toNat_sub_one : (align - 1).toNat = align.toNat - 1 := by
  have pos := aligned.toNat_pos
  bv_omega

theorem exists_pow : ∃ k, align.toNat = 2 ^ k := by
  have masked : align.toNat &&& (align.toNat - 1) = 0 := by
    rw [← aligned.toNat_sub_one, ← BitVec.toNat_and, aligned.2]
    rfl
  exact (Nat.and_sub_one_eq_zero_iff_isPowerOfTwo (pos_iff_ne_zero.mp aligned.toNat_pos)).mp masked

theorem toNat_and_sub_one (word : BitVec 64) :
    (word &&& (align - 1)).toNat = word.toNat % align.toNat := by
  obtain ⟨k, power⟩ := aligned.exists_pow
  rw [BitVec.toNat_and, aligned.toNat_sub_one, power, Nat.and_two_pow_sub_one_eq_mod]

theorem and_sub_one_eq_zero_iff (word : BitVec 64) :
    word &&& (align - 1) = 0 ↔ align.toNat ∣ word.toNat := by
  rw [Nat.dvd_iff_mod_eq_zero, ← aligned.toNat_and_sub_one]
  constructor
  · intro zero
    rw [zero]
    rfl
  · intro zero
    exact BitVec.eq_of_toNat_eq zero

theorem dvd_of_le {larger : BitVec 64} (alignedLarger : IsAlignment larger)
    (below : align.toNat ≤ larger.toNat) :
    align.toNat ∣ larger.toNat := by
  obtain ⟨k, power⟩ := aligned.exists_pow
  obtain ⟨l, powerLarger⟩ := alignedLarger.exists_pow
  rw [power, powerLarger] at below ⊢
  exact Nat.pow_dvd_pow 2 ((Nat.pow_le_pow_iff_right (by decide)).mp below)

theorem toNat_and_not_sub_one (word : BitVec 64) :
    (word &&& ~~~(align - 1)).toNat = word.toNat - word.toNat % align.toNat := by
  have parts : (word &&& ~~~(align - 1)) + (word &&& (align - 1)) = word := by
    rw [BitVec.add_eq_or_of_and_eq_zero]
    · ext index
      simp only [BitVec.getElem_or, BitVec.getElem_and, BitVec.getElem_not]
      cases word[index] <;> cases (align - 1)[index] <;> rfl
    · ext index
      simp only [BitVec.getElem_and, BitVec.getElem_not, BitVec.getElem_zero]
      cases word[index] <;> cases (align - 1)[index] <;> rfl
  have low : (word &&& (align - 1)).toNat ≤ word.toNat := by
    exact Nat.and_le_left
  rw [← aligned.toNat_and_sub_one]
  bv_omega

end IsAlignment

end Mlibc
