import Mathlib.Data.List.Perm.Basic
import Mathlib.Data.List.Nodup
import Mathlib.Data.Fintype.EquivFin
import Mathlib.Logic.Equiv.Basic

/-! # Rearrangements of a range -/

namespace Mlibc

open List

variable {α : Type*}

def Rearranges (first last : Nat) (before after : Nat → α) : Prop :=
  ∃ moves : Equiv.Perm Nat,
    (∀ position, ¬(first ≤ position ∧ position < last) → moves position = position) ∧
      ∀ position, after position = before (moves position)

namespace Rearranges

variable {first last : Nat} {before middle after : Nat → α}

theorem refl (first last : Nat) (sequence : Nat → α) : Rearranges first last sequence sequence :=
  ⟨Equiv.refl Nat, fun _ _ => rfl, fun _ => rfl⟩

theorem trans (once : Rearranges first last before middle)
    (again : Rearranges first last middle after) : Rearranges first last before after := by
  obtain ⟨moves, fixes, moved⟩ := once
  obtain ⟨moves', fixes', moved'⟩ := again
  refine ⟨moves'.trans moves, ?_, ?_⟩
  · intro position outside
    rw [Equiv.trans_apply, fixes' position outside, fixes position outside]
  · intro position
    rw [moved', moved, Equiv.trans_apply]

theorem mono {first' last' : Nat} (rearranges : Rearranges first last before after)
    (firstLe : first' ≤ first) (lastLe : last ≤ last') : Rearranges first' last' before after := by
  obtain ⟨moves, fixes, moved⟩ := rearranges
  refine ⟨moves, ?_, moved⟩
  intro position outside
  apply fixes
  omega

theorem swap {i j : Nat} (firstI : first ≤ i) (lastI : i < last) (firstJ : first ≤ j)
    (lastJ : j < last) (exchanged : ∀ position, after position = before (Equiv.swap i j position)) :
    Rearranges first last before after := by
  refine ⟨Equiv.swap i j, ?_, exchanged⟩
  intro position outside
  apply Equiv.swap_apply_of_ne_of_ne
  · rintro rfl
    exact outside ⟨firstI, lastI⟩
  · rintro rfl
    exact outside ⟨firstJ, lastJ⟩

theorem outside (rearranges : Rearranges first last before after) {position : Nat}
    (out : ¬(first ≤ position ∧ position < last)) : after position = before position := by
  obtain ⟨moves, fixes, moved⟩ := rearranges
  rw [moved, fixes position out]

theorem inside (rearranges : Rearranges first last before after) {position : Nat}
    (firstLe : first ≤ position) (lastLt : position < last) :
    ∃ old, first ≤ old ∧ old < last ∧ after position = before old := by
  obtain ⟨moves, fixes, moved⟩ := rearranges
  by_cases within : first ≤ moves position ∧ moves position < last
  · exact ⟨moves position, within.1, within.2, moved position⟩
  · have fixed : moves position = position := moves.injective (fixes _ within)
    rw [fixed] at within
    exact absurd ⟨firstLe, lastLt⟩ within

theorem forall_range (property : α → Prop) (rearranges : Rearranges first last before after)
    (holds : ∀ position, first ≤ position → position < last → property (before position)) :
    ∀ position, first ≤ position → position < last → property (after position) := by
  intro position firstLe lastLt
  obtain ⟨old, oldFirst, oldLast, same⟩ := rearranges.inside firstLe lastLt
  rw [same]
  exact holds old oldFirst oldLast

theorem perm {count : Nat} (rearranges : Rearranges 0 count before after) :
    ((range count).map after).Perm ((range count).map before) := by
  obtain ⟨moves, fixes, moved⟩ := rearranges
  have positions : ((range count).map moves).Perm (range count) := by
    have fixed (position : Nat) (out : ¬position < count) : moves position = position :=
      fixes position (fun within => out within.2)
    rw [perm_ext_iff_of_nodup (nodup_range.map moves.injective) nodup_range]
    intro position
    simp only [mem_map, mem_range]
    constructor
    · rintro ⟨old, within, rfl⟩
      by_contra out
      have same := moves.injective (fixed _ out)
      rw [same] at out
      exact out within
    intro within
    refine ⟨moves.symm position, ?_, moves.apply_symm_apply position⟩
    by_contra out
    have same := fixed _ out
    rw [moves.apply_symm_apply] at same
    rw [← same] at out
    exact out within
  have composed : (range count).map after = ((range count).map moves).map before := by
    rw [map_map]
    exact map_congr_left fun position _ => moved position
  rw [composed]
  exact positions.map before

end Rearranges

end Mlibc
