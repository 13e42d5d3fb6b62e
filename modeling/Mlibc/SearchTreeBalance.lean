import Mlibc.SearchTree

/-! # The balance of a search tree -/

namespace Mlibc.Search

open Tree

variable {α κ : Type*}

namespace Tree

@[simp]
theorem levels_nil : (nil : Tree α κ).levels = 0 := rfl

@[simp]
theorem levels_node (addr : α) (key : κ) (h : Int) (left right : Tree α κ) :
    (node addr key h left right).levels = 1 + max left.levels right.levels := rfl

theorem levels_nonneg (tree : Tree α κ) : 0 ≤ tree.levels := by
  induction tree with
  | nil => exact le_rfl
  | node addr key h left right ihLeft _ =>
    rw [levels_node]
    omega

theorem IsAvl.height_eq {tree : Tree α κ} (avl : tree.IsAvl) : tree.height = tree.levels := by
  cases tree with
  | nil => rfl
  | node addr key h left right => exact avl.2.2.1

theorem IsAvl.positive {tree : Tree α κ} (avl : tree.IsAvl) : tree.Positive := by
  induction tree with
  | nil => exact trivial
  | node addr key h left right ihLeft ihRight =>
    rcases avl with ⟨leftAvl, rightAvl, stored, _⟩
    have nonneg := left.levels_nonneg
    exact ⟨by omega, ihLeft leftAvl, ihRight rightAvl⟩

def Even : Tree α κ → Prop
  | nil => True
  | node _ _ _ left right => left.height = right.height

instance instDecidableEven : (tree : Tree α κ) → Decidable tree.Even
  | nil => .isTrue trivial
  | node _ _ _ left right => inferInstanceAs (Decidable (left.height = right.height))

/-- Balancing AVL trees whose heights differ by at most two gives an AVL tree, which is lower
exactly if a rotation lifts an uneven child. -/
theorem balance_avl {addr : α} {key : κ} {h : Int} {left right : Tree α κ} (leftAvl : left.IsAvl)
    (rightAvl : right.IsAvl)
    (leftNear : left.levels ≤ right.levels + 2) (rightNear : right.levels ≤ left.levels + 2)
    {outcome : Tree α κ × Int} (balanced : Balanced (node addr key h left right) outcome) :
    outcome.1.IsAvl ∧ outcome.2 = outcome.1.levels - h ∧
      outcome.1.levels = if left.levels = right.levels + 2 ∧ ¬ left.Even ∨
          right.levels = left.levels + 2 ∧ ¬ right.Even
        then max left.levels right.levels else 1 + max left.levels right.levels := by
  have leftHeight := leftAvl.height_eq
  have rightHeight := rightAvl.height_eq
  cases balanced with
  | level leftLow rightLow =>
    rw [if_neg (by omega)]
    simp only [IsAvl, levels_node]
    exact ⟨⟨leftAvl, rightAvl, by omega⟩, by omega, trivial⟩
  | single high outer =>
    rcases leftAvl with ⟨zAvl, yAvl, storedX, _⟩
    have zHeight := zAvl.height_eq
    have yHeight := yAvl.height_eq
    simp only [height_node, levels_node, Even, IsAvl] at *
    refine ⟨⟨zAvl, ⟨yAvl, rightAvl, by omega⟩, by omega⟩, by omega, ?_⟩
    split_ifs <;> omega
  | double high inner =>
    rcases leftAvl with ⟨zAvl, ⟨yLeftAvl, yRightAvl, storedY, _⟩, storedX, _⟩
    have zHeight := zAvl.height_eq
    simp only [height_node, levels_node, Even, IsAvl] at *
    refine ⟨⟨⟨zAvl, yLeftAvl, by omega⟩, ⟨yRightAvl, rightAvl, by omega⟩, by omega⟩, by omega, ?_⟩
    split_ifs <;> omega
  | singleMirrored high outer =>
    rcases rightAvl with ⟨yAvl, zAvl, storedX, _⟩
    have zHeight := zAvl.height_eq
    have yHeight := yAvl.height_eq
    simp only [height_node, levels_node, Even, IsAvl] at *
    refine ⟨⟨⟨leftAvl, yAvl, by omega⟩, zAvl, by omega⟩, by omega, ?_⟩
    split_ifs <;> omega
  | doubleMirrored high inner =>
    rcases rightAvl with ⟨⟨yLeftAvl, yRightAvl, storedY, _⟩, zAvl, storedX, _⟩
    have zHeight := zAvl.height_eq
    simp only [height_node, levels_node, Even, IsAvl] at *
    refine ⟨⟨⟨leftAvl, yLeftAvl, by omega⟩, ⟨yRightAvl, zAvl, by omega⟩, by omega⟩, by omega, ?_⟩
    split_ifs <;> omega

theorem rebalance_avl (addr : α) (key : κ) (h : Int) {left right : Tree α κ} (leftAvl : left.IsAvl)
    (rightAvl : right.IsAvl)
    (leftNear : left.levels ≤ right.levels + 2) (rightNear : right.levels ≤ left.levels + 2) :
    (node addr key h left right).rebalance.1.IsAvl ∧
      ((node addr key h left right).rebalance.2 = false ↔
        (node addr key h left right).rebalance.1.levels = h) ∧
      (node addr key h left right).rebalance.1.levels =
        if left.levels = right.levels + 2 ∧ ¬ left.Even ∨
          right.levels = left.levels + 2 ∧ ¬ right.Even
        then max left.levels right.levels else 1 + max left.levels right.levels := by
  have balanced : Balanced (node addr key h left right) _ :=
    balanced_balance leftAvl.positive rightAvl.positive
  rcases balance_avl leftAvl rightAvl leftNear rightNear balanced with
    ⟨avl, change, levels⟩
  refine ⟨avl, ?_, levels⟩
  simp only [rebalance, decide_eq_false_iff_not]
  omega

end Tree

/-! ### Going up -/

/-- A subtree takes the place of another one.  If its parent is not balanced, then its
height has not changed. -/
structure Adjusted (tree : Tree α κ) (outcome : Tree α κ × Bool) : Prop where
  avl : outcome.1.IsAvl
  lower : tree.levels ≤ outcome.1.levels + 1
  upper : outcome.1.levels ≤ tree.levels + 1
  unchanged : outcome.2 = false → outcome.1.levels = tree.levels

/-- The subtree may also become lower by one without a report, if that does not matter
next to its sibling. -/
structure Kept (sib : Option Int) (tree : Tree α κ) (outcome : Tree α κ × Bool) : Prop where
  avl : outcome.1.IsAvl
  lower : tree.levels ≤ outcome.1.levels + 1
  upper : outcome.1.levels ≤ tree.levels + 1
  unchanged : outcome.2 = false → outcome.1.levels = tree.levels ∨
    outcome.1.levels + 1 = tree.levels ∧ ∀ other ∈ sib, other = tree.levels

/-- The subtree is not an AVL tree any more and its parent is not rotated, or its parent
cannot be an AVL tree. -/
def Broken (sib : Option Int) (tree : Tree α κ) (outcome : Tree α κ × Bool) : Prop :=
  ¬ outcome.1.IsAvl ∧ (outcome.2 = true → outcome.1.height = tree.height) ∨
    outcome.2 = false ∧ outcome.1.levels + 1 = tree.levels ∧ ∃ other ∈ sib, other ≠ tree.levels

theorem Adjusted.kept {sib : Option Int} {tree : Tree α κ} {outcome : Tree α κ × Bool}
    (adjusted : Adjusted tree outcome) : Kept sib tree outcome :=
  ⟨adjusted.avl, adjusted.lower, adjusted.upper, fun silent => .inl (adjusted.unchanged silent)⟩

theorem rebalance_level {addr : α} {key : κ} {h : Int} {left right : Tree α κ}
    (leftNear : left.height ≤ right.height + 1) (rightNear : right.height ≤ left.height + 1) :
    (node addr key h left right).rebalance.1 =
      .node addr key (1 + max left.height right.height) left right := by
  have level : left.height - right.height < 2 ∧ right.height - left.height < 2 := by omega
  rw [rebalance, balance, if_pos level]

theorem rebalance_self {addr : α} {key : κ} {h : Int} {left right : Tree α κ}
    (stored : h = 1 + max left.height right.height)
    (leftNear : left.height ≤ right.height + 1) (rightNear : right.height ≤ left.height + 1) :
    (node addr key h left right).rebalance = (.node addr key h left right, false) := by
  have level : left.height - right.height < 2 ∧ right.height - left.height < 2 := by omega
  rw [rebalance, balance, if_pos level, ← stored]
  simp

namespace Frame

variable (frame : Frame α κ) {tree : Tree α κ}

theorem fill_levels (tree : Tree α κ) :
    (frame.fill tree).levels = 1 + max tree.levels frame.sibling.levels := by
  unfold fill
  split_ifs
  · rw [levels_node, max_comm]
  · rw [levels_node]

theorem fill_isAvl : (frame.fill tree).IsAvl ↔ tree.IsAvl ∧ frame.sibling.IsAvl ∧
    frame.h = 1 + max tree.levels frame.sibling.levels ∧
      tree.levels ≤ frame.sibling.levels + 1 ∧ frame.sibling.levels ≤ tree.levels + 1 := by
  unfold fill
  split_ifs
  · rw [max_comm]
    constructor <;> exact fun ⟨first, second, stored, near, far⟩ => ⟨second, first, stored, far,
    near⟩
  · exact .rfl

theorem rebalance_fill (avl : tree.IsAvl) (siblingAvl : frame.sibling.IsAvl)
    (near : tree.levels ≤ frame.sibling.levels + 2)
    (siblingNear : frame.sibling.levels ≤ tree.levels + 2) :
    (frame.fill tree).rebalance.1.IsAvl ∧
      ((frame.fill tree).rebalance.2 = false ↔ (frame.fill tree).rebalance.1.levels = frame.h) ∧
      ((frame.fill tree).rebalance.1.levels = 1 + max tree.levels frame.sibling.levels ∨
        (frame.fill tree).rebalance.1.levels = max tree.levels frame.sibling.levels ∧
          (tree.levels = frame.sibling.levels + 2 ∨ frame.sibling.levels = tree.levels + 2)) := by
  unfold fill
  split_ifs
  · rcases rebalance_avl frame.addr frame.key frame.h siblingAvl avl siblingNear near with
      ⟨newAvl, reported, levels⟩
    exact ⟨newAvl, reported, by split_ifs at levels <;> omega⟩
  · rcases rebalance_avl frame.addr frame.key frame.h avl siblingAvl near siblingNear with
      ⟨newAvl, reported, levels⟩
    exact ⟨newAvl, reported, by split_ifs at levels <;> omega⟩

theorem rebalance_fill_self (stored : frame.h = 1 + max tree.height frame.sibling.height)
    (near : tree.height ≤ frame.sibling.height + 1)
    (siblingNear : frame.sibling.height ≤ tree.height + 1) :
    (frame.fill tree).rebalance = (frame.fill tree, false) := by
  unfold fill
  split_ifs
  · exact rebalance_self (by omega) siblingNear near
  · exact rebalance_self stored near siblingNear

variable {subtree : Tree α κ × Bool}

theorem rejoin_adjusted (avl : (frame.fill tree).IsAvl)
    (kept : Kept (some frame.sibling.height) tree subtree) :
    Adjusted (frame.fill tree) (frame.rejoin subtree) := by
  rcases subtree with ⟨subtree, flag⟩
  rcases kept with ⟨subAvl, lower, upper, unchanged⟩
  rcases frame.fill_isAvl.mp avl with ⟨treeAvl, siblingAvl, stored, near, siblingNear⟩
  have siblingHeight := siblingAvl.height_eq
  cases flag with
  | false =>
    have close : subtree.levels = tree.levels ∨
        subtree.levels + 1 = tree.levels ∧ frame.sibling.height = tree.levels :=
      (unchanged rfl).imp_right fun ⟨dropped, equal⟩ => ⟨dropped, equal _ rfl⟩
    have newAvl : (frame.fill subtree).IsAvl :=
      frame.fill_isAvl.mpr ⟨subAvl, siblingAvl, by omega, by omega, by omega⟩
    have same : (frame.fill subtree).levels = (frame.fill tree).levels := by
      rw [fill_levels, fill_levels]
      omega
    have adjusted : Adjusted _ (frame.fill subtree, false) :=
      ⟨newAvl, by simp only; omega, by simp only; omega, fun _ => same⟩
    exact adjusted
  | true =>
    simp only at subAvl lower upper
    rcases frame.rebalance_fill subAvl siblingAvl (by omega) (by omega) with
      ⟨newAvl, reported, newLevels⟩
    have adjusted : Adjusted (frame.fill tree) (frame.fill subtree).rebalance := by
      have levels := frame.fill_levels tree
      refine ⟨newAvl, ?_, ?_, fun silent => ?_⟩
      · omega
      · omega
      · rw [reported.mp silent, levels, stored]
    exact adjusted

theorem rejoin_broken (avl : (frame.fill tree).IsAvl)
    (broken : Broken (some frame.sibling.height) tree subtree) (sib : Option Int) :
    Broken sib (frame.fill tree) (frame.rejoin subtree) := by
  rcases subtree with ⟨subtree, flag⟩
  have spoiled : ¬ subtree.IsAvl ∧ (flag = true → subtree.height = tree.height) ∨
      flag = false ∧ subtree.levels + 1 = tree.levels ∧ frame.sibling.height ≠ tree.levels := by
    rcases broken with spoiled | ⟨silent, dropped, _, mem, apart⟩
    · exact .inl spoiled
    · cases mem
      exact .inr ⟨silent, dropped, apart⟩
  left
  rcases frame.fill_isAvl.mp avl with ⟨treeAvl, siblingAvl, stored, near, siblingNear⟩
  have treeHeight := treeAvl.height_eq
  have siblingHeight := siblingAvl.height_eq
  have unrepaired : frame.rejoin (subtree, flag) = (frame.fill subtree, false) := by
    cases flag with
    | false => rfl
    | true =>
      rcases spoiled with ⟨_, reported⟩ | ⟨silent, _⟩
      · have sameHeight := reported rfl
        have self : (frame.fill subtree).rebalance = _ :=
          frame.rebalance_fill_self (by omega) (by omega) (by omega)
        exact self
      · cases silent
  rw [unrepaired]
  constructor
  · intro newAvl
    rcases frame.fill_isAvl.mp newAvl with ⟨subAvl, _, newStored, _⟩
    rcases spoiled with ⟨notAvl, _⟩ | ⟨_, dropped, apart⟩
    · exact notAvl subAvl
    · omega
  · exact nofun

end Frame

namespace Tree

variable {cmp : κ → κ → Int}

/-! ### Insertion -/

theorem insert_adjusted (addr : α) (newKey : κ) {tree : Tree α κ} (avl : tree.IsAvl) :
    Adjusted tree (tree.insert cmp addr newKey) := by
  induction tree with
  | nil => exact ⟨by simp [insert, IsAvl], by simp [insert], by simp [insert], by simp [insert]⟩
  | node other key h left right ihLeft ihRight =>
    unfold insert
    split_ifs
    · exact ⟨avl, by simp only; omega, by simp only; omega, fun _ => rfl⟩
    · exact Frame.rejoin_adjusted ⟨other, key, h, true, left⟩ avl (ihRight avl.2.1).kept
    · exact Frame.rejoin_adjusted ⟨other, key, h, false, right⟩ avl (ihLeft avl.1).kept

end Tree

end Mlibc.Search
