import Mlibc.Barrier

/-! # The packed word of a barrier -/

namespace Mlibc.Barrier

namespace Config

variable (cfg : Config)

theorem genShift_le : cfg.genShift ≤ 32 := cfg.least 32 cfg.count.toNat_lt.le

theorem genShift_eq_zero (single : cfg.count = 1) : cfg.genShift = 0 := by
  have least := cfg.least 0
  rw [single] at least
  exact Nat.le_zero.mp (least (by decide))

theorem genShift_pos (several : cfg.count ≠ 1) : 0 < cfg.genShift := by
  by_contra none
  have large := cfg.large
  rw [Nat.eq_zero_of_not_pos none] at large
  have one : cfg.count.toNat = 1 := by
    have := cfg.positive
    omega
  exact several (UInt32.toNat_inj.mp one)

private theorem shift_toNat (small : cfg.genShift < 32) :
    (UInt32.ofNat cfg.genShift).toNat = cfg.genShift := by
  exact Nat.mod_eq_of_lt (by omega)

theorem one_shiftLeft_toNat (small : cfg.genShift < 32) :
    ((1 : UInt32) <<< UInt32.ofNat cfg.genShift).toNat = 2 ^ cfg.genShift := by
  rw [UInt32.toNat_shiftLeft, shift_toNat cfg small, Nat.mod_eq_of_lt small,
    Nat.shiftLeft_eq, UInt32.toNat_one, one_mul]
  exact Nat.mod_eq_of_lt (Nat.pow_lt_pow_right (by decide) small)

theorem and_mask_toNat (old : UInt32) :
    (old &&& cfg.mask).toNat = old.toNat % 2 ^ cfg.genShift := by
  rw [UInt32.toNat_and, mask]
  split_ifs with small
  · have power := cfg.one_shiftLeft_toNat small
    rw [UInt32.toNat_sub_of_le, power, UInt32.toNat_one, Nat.and_two_pow_sub_one_eq_mod]
    rw [UInt32.le_iff_toNat_le, power]
    exact Nat.one_le_two_pow
  · have full : cfg.genShift = 32 := le_antisymm cfg.genShift_le (by omega)
    rw [full]
    exact Nat.and_two_pow_sub_one_eq_mod old.toNat 32

theorem gen_toNat (old : UInt32) : (cfg.gen old).toNat = old.toNat / 2 ^ cfg.genShift := by
  rw [gen]
  split_ifs with small
  · rw [UInt32.toNat_shiftRight, shift_toNat cfg small, Nat.mod_eq_of_lt small,
      Nat.shiftRight_eq_div_pow]
  · have full : cfg.genShift = 32 := le_antisymm cfg.genShift_le (by omega)
    rw [full, Nat.div_eq_of_lt old.toNat_lt]
    rfl

theorem isLast_iff (old : UInt32) :
    cfg.IsLast old ↔ old.toNat % 2 ^ cfg.genShift + 1 = cfg.count.toNat := by
  have bound := cfg.count.toNat_lt
  have pos := cfg.positive
  have low := (old &&& cfg.mask).toNat_lt
  rw [IsLast, ← UInt32.toNat_inj, UInt32.toNat_add, ← and_mask_toNat, UInt32.toNat_one]
  omega

theorem nextGenStart_mod {old start : UInt32} (next : cfg.nextGenStart old = some start) :
    start.toNat % 2 ^ cfg.genShift = 0 := by
  unfold nextGenStart at next
  split_ifs at next with small
  cases next
  rw [UInt32.toNat_shiftLeft, shift_toNat cfg small, Nat.mod_eq_of_lt small,
    Nat.shiftLeft_eq, Nat.mod_mod_of_dvd _ (Nat.pow_dvd_pow 2 small.le)]
  exact Nat.mul_mod_left _ _

theorem nextGenStart_div {old start : UInt32} (next : cfg.nextGenStart old = some start)
    (fits : ((cfg.gen old).toNat + 1) * 2 ^ cfg.genShift < 2 ^ 32) :
    start.toNat / 2 ^ cfg.genShift = (cfg.gen old).toNat + 1 := by
  unfold nextGenStart at next
  split_ifs at next with small
  cases next
  have room : (cfg.gen old).toNat + 1 < 2 ^ 32 :=
    (Nat.le_mul_of_pos_right _ (Nat.two_pow_pos _)).trans_lt fits
  rw [UInt32.toNat_shiftLeft, shift_toNat cfg small, Nat.mod_eq_of_lt small,
    Nat.shiftLeft_eq, UInt32.toNat_add, UInt32.toNat_one, Nat.mod_eq_of_lt room,
    Nat.mod_eq_of_lt fits]
  exact Nat.mul_div_cancel _ (Nat.two_pow_pos _)

variable {old : UInt32} (room : old.toNat % 2 ^ cfg.genShift + 1 < 2 ^ cfg.genShift)

include room

theorem succ_mod : (old + 1).toNat % 2 ^ cfg.genShift = old.toNat % 2 ^ cfg.genShift + 1 := by
  rw [UInt32.toNat_add, Nat.mod_mod_of_dvd _ (Nat.pow_dvd_pow 2 cfg.genShift_le),
    UInt32.toNat_one, Nat.add_mod]
  have one : 1 < 2 ^ cfg.genShift := by omega
  rw [Nat.mod_eq_of_lt one, Nat.mod_eq_of_lt room]

theorem succ_div : (old + 1).toNat / 2 ^ cfg.genShift = old.toNat / 2 ^ cfg.genShift := by
  have one : 1 < 2 ^ cfg.genShift := by omega
  have notMultiple : ¬ 2 ^ cfg.genShift ∣ old.toNat + 1 := by
    rw [Nat.dvd_iff_mod_eq_zero, Nat.add_mod, Nat.mod_eq_of_lt one, Nat.mod_eq_of_lt room]
    omega
  have noWrap : old.toNat + 1 < 2 ^ 32 := by
    by_contra wraps
    have bound := old.toNat_lt
    have last : old.toNat + 1 = 2 ^ 32 := by omega
    rw [last] at notMultiple
    exact notMultiple (Nat.pow_dvd_pow 2 cfg.genShift_le)
  rw [UInt32.toNat_add, UInt32.toNat_one, Nat.mod_eq_of_lt noWrap, Nat.succ_div,
    if_neg notMultiple, add_zero]

end Config

theorem sub_toInt32_pos {seq gen : UInt32} (low : gen.toNat < 2 ^ 31)
    (pos : 0 < (seq - gen).toInt32) : gen.toNat < seq.toNat := by
  have signed : (seq - gen).toInt32.toInt = ((seq - gen).toNat : Int).bmod (2 ^ 32) := by
    simp only [Int32.toInt, BitVec.toInt_eq_toNat_bmod]
    rfl
  have zero : Int32.toInt 0 = 0 := rfl
  rw [Int32.lt_iff_toInt_lt, signed, UInt32.toNat_sub] at pos
  simp only [Int.bmod] at pos
  split at pos <;> omega

end Mlibc.Barrier
