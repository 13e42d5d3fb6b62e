import Mlibc.SearchTreeBalance

/-!
# Deletion and the balance of a search tree

The loop of `tdelete` stops at the first node whose stored height does not change, and so misses
changes.
-/

namespace Mlibc.Search

open Frame

variable {α κ : Type*}

namespace Tree

def Shrinks : Tree α κ → Prop
  | nil => False
  | node _ _ _ _ nil => True
  | node _ _ _ left right =>
    right.Shrinks ∧ (left.height < right.height ∨ right.height < left.height ∧ ¬ left.Even)

theorem rejoin_last {addr : α} {key : κ} {h : Int} {left right : Tree α κ}
    (avl : (node addr key h left right).IsAvl) {subtree : Tree α κ} {flag : Bool}
    (subAvl : subtree.IsAvl) (levels : right.levels = subtree.levels + if flag then 1 else 0) :
    let outcome := rejoin ⟨addr, key, h, true, left⟩ (subtree, flag)
    outcome.1.IsAvl ∧ (outcome.2 = true ↔ flag = true ∧
        (left.height < right.height ∨ right.height < left.height ∧ ¬ left.Even)) ∧
      (node addr key h left right).levels = outcome.1.levels + if outcome.2 then 1 else 0 := by
  rcases avl with ⟨leftAvl, rightAvl, stored, leftNear, rightNear⟩
  rw [leftAvl.height_eq, rightAvl.height_eq]
  cases flag with
  | false =>
    have same : right.levels = subtree.levels := by simpa using levels
    have newAvl : (node addr key h left subtree).IsAvl :=
      ⟨leftAvl, subAvl, by omega, by omega, by omega⟩
    refine ⟨newAvl, by simp [rejoin], ?_⟩
    simp [rejoin, fill, same]
  | true =>
    simp only [if_true] at levels
    rcases rebalance_avl addr key h leftAvl subAvl (by omega) (by omega) with
      ⟨newAvl, reported, newLevels⟩
    have lifted : (left.levels = subtree.levels + 2 ∧ ¬ left.Even ∨
          subtree.levels = left.levels + 2 ∧ ¬ subtree.Even) ↔
        right.levels < left.levels ∧ ¬ left.Even := by
      constructor
      · rintro (⟨high, uneven⟩ | ⟨high, _⟩)
        · exact ⟨by omega, uneven⟩
        · omega
      · rintro ⟨high, uneven⟩
        exact .inl ⟨by omega, uneven⟩
    rw [if_congr lifted rfl rfl] at newLevels
    simp only [rejoin, fill, if_true, levels_node, true_and]
    generalize (node addr key h left subtree).rebalance = outcome at *
    rcases outcome with ⟨outcome, flag⟩
    simp only at reported newLevels ⊢
    refine ⟨newAvl, ?_⟩
    by_cases rotated : right.levels < left.levels ∧ ¬ left.Even
    · rw [if_pos rotated] at newLevels
      have changed : flag = true := by
        rw [← Bool.not_eq_false, reported]
        omega
      exact ⟨iff_of_true changed (.inr rotated), by rw [if_pos changed]; omega⟩
    rw [if_neg rotated] at newLevels
    by_cases higher : left.levels < right.levels
    · have changed : flag = true := by
        rw [← Bool.not_eq_false, reported]
        omega
      exact ⟨iff_of_true changed (.inl higher), by rw [if_pos changed]; omega⟩
    have silent : flag = false := reported.mpr (by omega)
    refine ⟨iff_of_false (by simp [silent]) (not_or.mpr ⟨higher, rotated⟩), ?_⟩
    simp only [silent, Bool.false_eq_true, if_false]
    omega

theorem removeLast_avl {tree : Tree α κ} (avl : tree.IsAvl) (ne : tree ≠ nil) :
    tree.removeLast.1.IsAvl ∧ (tree.removeLast.2 = true ↔ tree.Shrinks) ∧
      tree.levels = tree.removeLast.1.levels + if tree.removeLast.2 then 1 else 0 := by
  induction tree with
  | nil => exact absurd rfl ne
  | node addr key h left right _ ihRight =>
    cases right with
    | nil =>
      have nonneg := left.levels_nonneg
      refine ⟨avl.1, iff_of_true rfl trivial, ?_⟩
      simp only [removeLast, levels_node, levels_nil, if_true]
      omega
    | node innerAddr innerKey innerH innerLeft innerRight =>
      rcases ihRight avl.2.1 (by simp) with ⟨lastAvl, shrinks, levels⟩
      rcases rejoin_last avl lastAvl levels with ⟨newAvl, newShrinks, newLevels⟩
      exact ⟨newAvl, newShrinks.trans (and_congr_left' shrinks), newLevels⟩

theorem last_le_levels {tree : Tree α κ} (avl : tree.IsAvl) (ne : tree ≠ nil) (parent : α)
    (parentKey : κ) (parentH : Int) :
    (last parent parentKey parentH tree).2.2 ≤ tree.levels := by
  induction tree generalizing parent parentKey parentH with
  | nil => exact absurd rfl ne
  | node addr key h left right _ ihRight =>
    rcases avl with ⟨_, rightAvl, stored, _⟩
    cases right with
    | nil => exact stored.le
    | node =>
      have deeper := ihRight rightAvl (by simp) addr key h
      simp only [levels_node, last] at deeper ⊢
      omega

/-! ### The removed node -/

/-- When the removal of the parent of the two subtrees, of the stored height `h`, does no harm. -/
def JoinsBalanced (sib : Option Int) (h : Int) (left right : Tree α κ) : Prop :=
  match left, right with
  | nil, nil => True
  | nil, _ => ∀ other ∈ sib, other = h
  | _, nil => ∀ other ∈ sib, other = h
  | node _ _ leftH _ nil, right =>
    leftH = 2 ∧ right.height = 1 → ∀ other ∈ sib, other = h
  | node _ _ _ left inner, _ => left.height = inner.height ∧ inner.Shrinks

theorem rebalance_of_avl {tree : Tree α κ} (avl : tree.IsAvl) (ne : tree ≠ nil) :
    tree.rebalance = (tree, false) := by
  cases tree with
  | nil => exact absurd rfl ne
  | node addr key h left right =>
    rcases avl with ⟨leftAvl, rightAvl, stored, leftNear, rightNear⟩
    rw [← leftAvl.height_eq, ← rightAvl.height_eq] at stored leftNear rightNear
    exact rebalance_self stored leftNear rightNear

theorem dropped_settles {sib : Option Int} {tree subtree : Tree α κ} {h : Int}
    (stored : tree.levels = h) (dropped : subtree.levels + 1 = h) (avl : subtree.IsAvl) :
    ((∀ other ∈ sib, other = h) → Kept sib tree (subtree, false)) ∧
      ((¬∀ other ∈ sib, other = h) → Broken sib tree (subtree, false)) := by
  subst stored
  constructor
  · intro harmless
    exact ⟨avl, by simp only; omega, by simp only; omega, fun _ => .inr ⟨dropped, harmless⟩⟩
  · intro harmful
    push Not at harmful
    exact .inr ⟨rfl, dropped, harmful⟩

theorem levels_pos {tree : Tree α κ} (ne : tree ≠ nil) : 0 < tree.levels := by
  cases tree with
  | nil => exact absurd rfl ne
  | node addr key h left right =>
    have nonneg := left.levels_nonneg
    rw [levels_node]
    omega

section Join

variable {sib : Option Int} {addr leftAddr : α} {key leftKey : κ} {h leftH : Int}
  {outer inner left right : Tree α κ}

theorem rebalance_direct
    (avl : (node addr key h (node leftAddr leftKey leftH outer nil) right).IsAvl)
    (ne : right ≠ nil) :
    let joined := (node leftAddr leftKey leftH outer right).rebalance
    joined.1.IsAvl ∧ (leftH = 2 ∧ right.height = 1 → joined.2 = false ∧ joined.1.levels + 1 = h) ∧
    (¬ (leftH = 2 ∧ right.height = 1) →
      Adjusted (node addr key h (node leftAddr leftKey leftH outer nil) right) joined) := by
  rcases avl with ⟨⟨outerAvl, _, leftStored, outerNear, _⟩, rightAvl, stored, near⟩
  have rightHeight := rightAvl.height_eq
  have rightPos := levels_pos ne
  have outerNonneg := outer.levels_nonneg
  simp only [levels_node, levels_nil] at leftStored outerNear stored near
  rcases rebalance_avl leftAddr leftKey leftH outerAvl rightAvl (by omega) (by omega) with
    ⟨newAvl, reported, levels⟩
  generalize (node leftAddr leftKey leftH outer right).rebalance = joined at *
  refine ⟨newAvl, ?_, ?_⟩
  · intro low
    rw [if_neg (by omega)] at levels
    exact ⟨reported.mpr (by omega), by omega⟩
  intro high
  have bounds : right.levels ≤ joined.1.levels ∧ outer.levels < joined.1.levels ∧
      (joined.1.levels ≤ right.levels + 1 ∨ joined.1.levels ≤ outer.levels + 1) ∧
      (right.levels ≤ outer.levels + 1 → right.levels < joined.1.levels) := by
    split_ifs at levels <;> omega
  refine ⟨newAvl, ?_, ?_, ?_⟩
  · simp only [levels_node, levels_nil]
    omega
  · simp only [levels_node, levels_nil]
    omega
  intro silent
  have same := reported.mp silent
  simp only [levels_node, levels_nil]
  omega

theorem join_deeper_settles (sib : Option Int)
    (avl : (node addr key h (node leftAddr leftKey leftH outer inner) right).IsAvl)
    (ne : inner ≠ nil) :
    let tree := node addr key h (node leftAddr leftKey leftH outer inner) right
    let spliced := splice leftAddr leftKey leftH outer inner right
    let joined := if inner.removeLast.2 then spliced.rebalance else (spliced, false)
    (outer.height = inner.height ∧ inner.Shrinks → Adjusted tree joined) ∧
      (¬(outer.height = inner.height ∧ inner.Shrinks) → Broken sib tree joined) := by
  intro tree spliced joined
  rcases avl with ⟨⟨outerAvl, innerAvl, leftStored, leftNear⟩, rightAvl, stored, near⟩
  rcases removeLast_avl innerAvl ne with ⟨lastAvl, reported, levels⟩
  rw [outerAvl.height_eq, innerAvl.height_eq]
  rw [levels_node] at stored near
  by_cases changed : inner.removeLast.2 = true
  · have isJoined : joined = spliced.rebalance := if_pos changed
    rw [changed, if_pos rfl] at levels
    rw [isJoined]
    constructor
    · rintro ⟨even, _⟩
      have leftAvl : (node leftAddr leftKey leftH outer inner.removeLast.1).IsAvl :=
        ⟨outerAvl, lastAvl, by omega, by omega, by omega⟩
      have leftLevels : _ = leftH := leftAvl.height_eq.symm
      rcases rebalance_avl _ _ _ leftAvl rightAvl (by omega) (by omega) with ⟨newAvl, _, newLevels⟩
      rw [if_neg (by omega), leftLevels] at newLevels
      have same : spliced.rebalance.1.levels = tree.levels := by
        rw [levels_node, levels_node, ← leftStored]
        exact newLevels
      exact ⟨newAvl, by omega, by omega, fun _ => same⟩
    · intro harmful
      have rightHeight := rightAvl.height_eq
      have uneven : outer.levels ≠ inner.levels :=
        fun even => harmful ⟨even, reported.mp changed⟩
      have level : spliced.rebalance.1 = _ :=
        rebalance_level (by simp only [height_node]; omega) (by simp only [height_node]; omega)
      rw [Broken, level]
      left
      constructor
      · rintro ⟨⟨_, _, newStored, newNear⟩, _⟩
        omega
      · have isTree : tree.height = h := rfl
        simp only [height_node]
        omega
  · have isJoined : joined = (spliced, false) := if_neg changed
    rw [if_neg changed] at levels
    rw [isJoined]
    refine ⟨fun harmless => absurd (reported.mpr harmless.2) changed, fun _ => .inl ?_⟩
    have lastLow := last_le_levels innerAvl ne leftAddr leftKey leftH
    refine ⟨?_, fun reported => by cases reported⟩
    rintro ⟨_, _, lastStored, _⟩
    omega

theorem levels_only_child (avl : (node addr key h left right).IsAvl) :
    (left = nil → right ≠ nil → right.levels + 1 = h) ∧
      (right = nil → left ≠ nil → left.levels + 1 = h) := by
  rcases avl with ⟨_, _, stored, leftNear, rightNear⟩
  constructor
  all_goals
    rintro rfl ne
    have pos := levels_pos ne
    rw [levels_nil] at *
    omega

theorem join_settles (avl : (node addr key h left right).IsAvl) :
    (JoinsBalanced sib h left right →
      Kept sib (node addr key h left right) (join left right)) ∧
    (¬ JoinsBalanced sib h left right →
      Broken sib (node addr key h left right) (join left right)) := by
  have stored : (node addr key h left right).levels = h := avl.height_eq.symm
  have onlyChild := levels_only_child avl
  cases left with
  | nil =>
    cases right with
    | nil => exact ⟨fun _ => ⟨trivial, by simp [join], by simp [join], nofun⟩, absurd trivial⟩
    | node =>
      simp only [join, rebalance_of_avl avl.2.1 (by simp)]
      exact dropped_settles stored (onlyChild.1 rfl (by simp)) avl.2.1
  | node leftAddr leftKey leftH outer inner =>
    cases right with
    | nil =>
      simp only [join, rebalance_of_avl avl.1 (by simp)]
      exact dropped_settles stored (onlyChild.2 rfl (by simp)) avl.1
    | node rightAddr rightKey rightH rightLeft rightRight =>
      cases inner with
      | nil =>
        rcases rebalance_direct avl (by simp) with ⟨newAvl, silent, adjusted⟩
        by_cases low : leftH = 2 ∧ rightH = 1
        · rcases silent low with ⟨silent, dropped⟩
          have settles := @dropped_settles _ _ sib _ _ _ stored dropped newAvl
          rw [← silent] at settles
          exact ⟨fun harmless => settles.1 (harmless low),
            fun harmful => settles.2 fun harmless => harmful fun _ => harmless⟩
        · exact ⟨fun _ => (adjusted low).kept, fun harmful => absurd (absurd · low) harmful⟩
      | node innerAddr innerKey innerH innerLeft innerRight =>
        have settles := join_deeper_settles sib avl (by simp)
        exact ⟨fun harmless => (settles.1 harmless).kept, settles.2⟩

end Join

/-! ### Deletion -/

def DeletesBalanced (cmp : κ → κ → Int) (oldKey : κ) : Option Int → Tree α κ → Prop
  | _, nil => True
  | sib, node _ key h left right =>
    if cmp oldKey key = 0 then JoinsBalanced sib h left right
    else if 0 < cmp oldKey key then
      right.DeletesBalanced cmp oldKey (some left.height)
    else left.DeletesBalanced cmp oldKey (some right.height)

section Delete

variable {cmp : κ → κ → Int} {oldKey : κ} {tree : Tree α κ}

theorem delete_settles {sib : Option Int} (avl : tree.IsAvl) :
    (tree.DeletesBalanced cmp oldKey sib → Kept sib tree (tree.delete cmp oldKey)) ∧
    (¬ tree.DeletesBalanced cmp oldKey sib →
      Broken sib tree (tree.delete cmp oldKey)) := by
  induction tree generalizing sib with
  | nil =>
    exact ⟨fun _ => ⟨trivial, by simp [delete], by simp [delete], fun _ => .inl rfl⟩,
      absurd trivial⟩
  | node addr key h left right ihLeft ihRight =>
    unfold DeletesBalanced delete
    split_ifs
    · exact join_settles avl
    · have settles := @ihRight (some left.height) avl.2.1
      exact ⟨fun harmless => (rejoin_adjusted ⟨addr, key, h, true, left⟩ avl
          (settles.1 harmless)).kept,
        fun harmful => rejoin_broken ⟨addr, key, h, true, left⟩ avl (settles.2 harmful) _⟩
    · have settles := @ihLeft (some right.height) avl.1
      exact ⟨fun harmless => (rejoin_adjusted ⟨addr, key, h, false, right⟩ avl
          (settles.1 harmless)).kept,
        fun harmful => rejoin_broken ⟨addr, key, h, false, right⟩ avl (settles.2 harmful) _⟩

theorem delete_avl_iff (avl : tree.IsAvl) :
    (tree.delete cmp oldKey).1.IsAvl ↔ tree.DeletesBalanced cmp oldKey none := by
  constructor
  · intro newAvl
    by_contra harmful
    rcases (delete_settles avl).2 harmful with ⟨notAvl, _⟩ | ⟨_, _, _, mem, _⟩
    · exact notAvl newAvl
    · cases mem
  · intro harmless
    exact ((delete_settles avl).1 harmless).avl

end Delete

instance instDecidableShrinks : (tree : Tree α κ) → Decidable tree.Shrinks
  | nil => .isFalse id
  | node _ _ _ _ nil => .isTrue trivial
  | node _ _ _ _ (node addr key h innerLeft innerRight) =>
    have := instDecidableShrinks (node addr key h innerLeft innerRight)
    inferInstanceAs (Decidable (_ ∧ (_ ∨ _ ∧ _)))

instance instDecidableJoinsBalanced (sib : Option Int) (h : Int) :
    (left right : Tree α κ) → Decidable (JoinsBalanced sib h left right)
  | nil, nil => .isTrue trivial
  | nil, node _ _ _ _ _ => inferInstanceAs (Decidable (∀ other ∈ sib, other = h))
  | node _ _ _ _ _, nil => inferInstanceAs (Decidable (∀ other ∈ sib, other = h))
  | node _ _ _ _ nil, node _ _ _ _ _ =>
    inferInstanceAs (Decidable (_ ∧ _ → ∀ other ∈ sib, other = h))
  | node _ _ _ _ (node _ _ _ _ _), node _ _ _ _ _ =>
    inferInstanceAs (Decidable (_ ∧ Shrinks _))

instance instDecidableDeletesBalanced (cmp : κ → κ → Int) (oldKey : κ) :
    (sib : Option Int) → (tree : Tree α κ) →
      Decidable (tree.DeletesBalanced cmp oldKey sib)
  | _, nil => .isTrue trivial
  | sib, node _ key h left right =>
    have := instDecidableDeletesBalanced cmp oldKey (some left.height) right
    have := instDecidableDeletesBalanced cmp oldKey (some right.height) left
    inferInstanceAs (Decidable (if cmp oldKey key = 0 then JoinsBalanced sib h left right
      else if 0 < cmp oldKey key then right.DeletesBalanced cmp oldKey (some left.height)
      else left.DeletesBalanced cmp oldKey (some right.height)))

end Tree

end Mlibc.Search
