import Mathlib.Data.Nat.Find
import Mathlib.Data.Nat.ModEq
import Mathlib.Tactic.Common

/-! # Positions on a ring -/

namespace Mlibc.RingProbe

variable {size start : Nat}

def position (size start dist : Nat) : Nat := (start + dist) % size

theorem position_lt (pos : 0 < size) (dist : Nat) : position size start dist < size :=
  Nat.mod_lt _ pos

theorem position_zero (within : start < size) : position size start 0 = start :=
  Nat.mod_eq_of_lt within

theorem position_succ (dist : Nat) :
    (position size start dist + 1) % size = position size start (dist + 1) := by
  rw [position, position, Nat.mod_add_mod, add_assoc]

theorem position_injective {first second : Nat} (firstLt : first < size) (secondLt : second < size)
    (same : position size start first = position size start second) : first = second := by
  have congruent : first ≡ second [MOD size] := Nat.ModEq.add_left_cancel' start same
  rw [Nat.ModEq, Nat.mod_eq_of_lt firstLt, Nat.mod_eq_of_lt secondLt] at congruent
  exact congruent

theorem exists_position {i : Nat} (startLt : start < size) (within : i < size) :
    ∃ dist < size, position size start dist = i := by
  by_cases behind : start ≤ i
  · refine ⟨i - start, by omega, ?_⟩
    rw [position, Nat.add_sub_cancel' behind, Nat.mod_eq_of_lt within]
  · refine ⟨size - start + i, by omega, ?_⟩
    have whole : start + (size - start + i) = i + size := by omega
    rw [position, whole, Nat.add_mod_right, Nat.mod_eq_of_lt within]

theorem position_eq_start_iff {dist : Nat} (startLt : start < size) (le : dist ≤ size)
    (pos : 0 < dist) : position size start dist = start ↔ dist = size := by
  constructor
  · intro back
    by_contra before
    have same : position size start dist = position size start 0 := by
      rw [back, position_zero startLt]
    have zero := position_injective (by omega) (by omega) same
    omega
  · rintro rfl
    rw [position, Nat.add_mod_right, Nat.mod_eq_of_lt startLt]

theorem exists_first (property : Nat → Prop) (size : Nat) :
    (∃ dist < size, property dist ∧ ∀ before < dist, ¬property before) ∨
      ∀ dist < size, ¬property dist := by
  classical
  by_cases some : ∃ dist, dist < size ∧ property dist
  · obtain ⟨within, holds⟩ := Nat.find_spec some
    refine .inl ⟨Nat.find some, within, holds, ?_⟩
    intro before old satisfied
    exact Nat.find_min some old ⟨old.trans within, satisfied⟩
  · right
    intro dist within holds
    exact some ⟨dist, within, holds⟩

end Mlibc.RingProbe
