import Mathlib.Data.List.TakeWhile
import Mathlib.Tactic.Common

/-! # The longest accepted prefix -/

namespace Mlibc

open List

variable {α : Type*}

def LongestPrefix (language : List α → Prop) (text : List α) : Option Nat → Prop
  | some n => n ≤ text.length ∧ language (text.take n) ∧
      ∀ m ≤ text.length, language (text.take m) → m ≤ n
  | none => ∀ m ≤ text.length, ¬language (text.take m)

namespace LongestPrefix

variable {language other : List α → Prop} {text : List α}

theorem unique {first second : Option Nat} (isFirst : LongestPrefix language text first)
    (isSecond : LongestPrefix language text second) : first = second := by
  cases first with
  | none =>
    cases second with
    | none => rfl
    | some n => exact absurd isSecond.2.1 (isFirst n isSecond.1)
  | some m =>
    cases second with
    | none => exact absurd isFirst.2.1 (isSecond m isFirst.1)
    | some n =>
      have le := isSecond.2.2 m isFirst.1 isFirst.2.1
      have ge := isFirst.2.2 n isSecond.1 isSecond.2.1
      exact congrArg some (le.antisymm ge)

theorem congr {length : Option Nat} (same : ∀ m ≤ text.length,
      (language (text.take m) ↔ other (text.take m)))
    (longest : LongestPrefix language text length) : LongestPrefix other text length := by
  cases length with
  | none =>
    intro m mLe acc
    exact longest m mLe ((same m mLe).mpr acc)
  | some n =>
    refine ⟨longest.1, (same n longest.1).mp longest.2.1, ?_⟩
    intro m mLe acc
    exact longest.2.2 m mLe ((same m mLe).mpr acc)

theorem of_append {front back : List α} (acc : language front)
    (bound : ∀ word rest, front ++ back = word ++ rest → language word →
      word.length ≤ front.length) :
    LongestPrefix language (front ++ back) (some front.length) := by
  refine ⟨?_, ?_, ?_⟩
  · rw [length_append]
    exact Nat.le_add_right _ _
  · rw [take_left]
    exact acc
  · intro m mLe isWord
    have short := bound _ ((front ++ back).drop m) (take_append_drop m _).symm isWord
    rwa [length_take, Nat.min_eq_left mLe] at short

theorem none_of (absent : ∀ word rest, text = word ++ rest → ¬language word) :
    LongestPrefix language text none :=
  fun m _ => absent _ (text.drop m) (take_append_drop m text).symm

theorem take {n limit : Nat} (longest : LongestPrefix language text (some n))
    (inside : n ≤ limit) : LongestPrefix language (text.take limit) (some n) := by
  obtain ⟨nLe, acc, bound⟩ := longest
  refine ⟨?_, ?_, ?_⟩
  · rw [length_take]
    exact Nat.le_min.mpr ⟨inside, nLe⟩
  · rwa [take_take, Nat.min_eq_left inside]
  intro m mLe isWord
  rw [length_take] at mLe
  rw [take_take, Nat.min_eq_left (mLe.trans (Nat.min_le_left _ _))] at isWord
  exact bound m (mLe.trans (Nat.min_le_right _ _)) isWord

theorem skip {length : Option Nat} {start : List α} {rest : List α}
    (within : ∀ m, m < start.length → ¬language ((start ++ rest).take m))
    (behind : ∀ m, language (start ++ rest.take m) ↔ other (rest.take m))
    (longest : LongestPrefix other rest length) :
    LongestPrefix language (start ++ rest) (length.map (start.length + ·)) := by
  have take_behind (m : Nat) : (start ++ rest).take (start.length + m) = start ++ rest.take m := by
    rw [take_append, take_of_length_le (Nat.le_add_right _ _), Nat.add_sub_cancel_left]
  have accepted_behind {m : Nat} (acc : language ((start ++ rest).take m)) :
      ∃ k, m = start.length + k ∧ other (rest.take k) := by
    have le : start.length ≤ m := by
      by_contra short
      exact within m (Nat.lt_of_not_le short) acc
    obtain ⟨k, rfl⟩ := Nat.exists_eq_add_of_le le
    rw [take_behind, behind] at acc
    exact ⟨k, rfl, acc⟩
  cases length with
  | none =>
    intro m mLe acc
    obtain ⟨k, rfl, isOther⟩ := accepted_behind acc
    rw [length_append] at mLe
    exact longest k (by omega) isOther
  | some n =>
    refine ⟨?_, ?_, ?_⟩
    · rw [length_append]
      exact Nat.add_le_add_left longest.1 _
    · rw [take_behind, behind]
      exact longest.2.1
    intro m mLe acc
    obtain ⟨k, rfl, isOther⟩ := accepted_behind acc
    rw [length_append] at mLe
    exact Nat.add_le_add_left (longest.2.2 k (by omega) isOther) _

theorem run (property : α → Bool) (text : List α) :
    LongestPrefix (fun word => word ≠ [] ∧ ∀ c ∈ word, property c = true) text
      (if text.takeWhile property = [] then none else some (text.takeWhile property).length) := by
  have bounded {m : Nat} (mLe : m ≤ text.length)
      (all : ∀ c ∈ text.take m, property c = true) : m ≤ (text.takeWhile property).length := by
    have split : text.takeWhile property = text.take m ++ (text.drop m).takeWhile property := by
      conv_lhs => rw [← take_append_drop m text]
      exact takeWhile_append_of_pos all
    rw [split, length_append, length_take]
    omega
  split_ifs with empty
  · intro m mLe acc
    have short := bounded mLe acc.2
    rw [empty] at short
    have zero : m = 0 := Nat.le_zero.mp short
    subst zero
    exact acc.1 rfl
  have isPrefix := takeWhile_prefix property (l := text)
  have taken : text.take (text.takeWhile property).length = text.takeWhile property :=
    (prefix_iff_eq_take.mp isPrefix).symm
  refine ⟨isPrefix.length_le, ?_, ?_⟩
  · rw [taken]
    exact ⟨empty, fun c mem => mem_takeWhile_imp mem⟩
  · intro m mLe acc
    exact bounded mLe acc.2

end LongestPrefix

end Mlibc
