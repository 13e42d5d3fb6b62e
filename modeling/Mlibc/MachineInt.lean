import Mathlib.Tactic.SplitIfs

/-! # The integers of the machine -/

namespace Mlibc

def InInt (value : Int) : Prop := -2147483648 ≤ value ∧ value ≤ 2147483647

instance (value : Int) : Decidable (InInt value) := inferInstanceAs (Decidable (_ ∧ _))

def checkInt (value : Int) : Option Int := if InInt value then some value else none

def toInt (value : Int) : Int := (value + 2147483648) % 4294967296 - 2147483648

def toUnsigned (value : Int) : Int := value % 4294967296

variable {value : Int}

theorem checkInt_of_inInt (inside : InInt value) : checkInt value = some value :=
  if_pos inside

theorem checkInt_eq_some {result : Int} :
    checkInt value = some result ↔ InInt value ∧ value = result := by
  unfold checkInt
  split <;> simp [*]

theorem toInt_of_inInt (inside : InInt value) : toInt value = value := by
  unfold InInt at inside
  unfold toInt
  omega

theorem inInt_toInt (value : Int) : InInt (toInt value) := by
  unfold InInt toInt
  omega

theorem toUnsigned_of_lt (nonnegative : 0 ≤ value) (small : value < 4294967296) :
    toUnsigned value = value :=
  Int.emod_eq_of_lt nonnegative small

theorem tdiv_eq_ediv_of {dividend divisor : Int} (rounds : 0 ≤ dividend ∨ divisor ∣ dividend) :
    dividend.tdiv divisor = dividend / divisor := by
  rcases rounds with nonnegative | divides
  · exact Int.tdiv_eq_ediv_of_nonneg nonnegative
  · exact Int.tdiv_eq_ediv_of_dvd divides

theorem tmod_eq_emod_of {dividend divisor : Int} (rounds : 0 ≤ dividend ∨ divisor ∣ dividend) :
    dividend.tmod divisor = dividend % divisor := by
  rcases rounds with nonnegative | divides
  · exact Int.tmod_eq_emod_of_nonneg nonnegative
  · rw [Int.tmod_eq_zero_of_dvd divides, Int.emod_eq_zero_of_dvd divides]

theorem tdiv_rounded_down (dividend : Int) {divisor : Int} (pos : 0 < divisor) :
    (if 0 ≤ dividend then dividend else dividend - (divisor - 1)).tdiv divisor =
      dividend / divisor := by
  split_ifs with nonnegative
  · exact Int.tdiv_eq_ediv_of_nonneg nonnegative
  have shifted : dividend - (divisor - 1) = -(-dividend - 1 + divisor) := by omega
  have decomposed := Int.emod_add_mul_ediv dividend divisor
  have below := Int.emod_lt_of_pos dividend pos
  have above := Int.emod_nonneg dividend (Int.ne_of_gt pos)
  have quotient : (-dividend - 1) / divisor = -(dividend / divisor) - 1 := by
    refine ((Int.ediv_emod_unique pos).mpr
      (⟨?_, ?_, ?_⟩ : (divisor - 1 - dividend % divisor) + _ = _ ∧ _)).1
    · rw [Int.mul_sub, Int.mul_neg]
      omega
    · omega
    · omega
  rw [shifted, Int.neg_tdiv, Int.tdiv_eq_ediv_of_nonneg (by omega),
    Int.add_ediv_of_dvd_right (Int.dvd_refl divisor), Int.ediv_self (Int.ne_of_gt pos)]
  omega

end Mlibc
