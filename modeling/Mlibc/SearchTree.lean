import Mathlib.Order.Lattice
import Mathlib.Tactic.Cases

/-!
# Balanced search trees with stored heights

The tree of `tsearch` and `tdelete` without pointers.  The stored height of a node need not be its
height.
-/

namespace Mlibc.Search

/-- A tree whose nodes have addresses and stored heights. -/
inductive Tree (α κ : Type*) where
  | nil
  | node (addr : α) (key : κ) (h : Int) (left right : Tree α κ)
  deriving DecidableEq

/-- A node on the path from the root, with the subtree that is not on the path. -/
structure Frame (α κ : Type*) where
  addr : α
  key : κ
  h : Int
  right : Bool
  sibling : Tree α κ

variable {α κ : Type*}

namespace Tree

def height : Tree α κ → Int
  | nil => 0
  | node _ _ h _ _ => h

@[simp]
theorem height_nil : (nil : Tree α κ).height = 0 := rfl

@[simp]
theorem height_node (addr : α) (key : κ) (h : Int) (left right : Tree α κ) :
    (node addr key h left right).height = h := rfl

def levels : Tree α κ → Int
  | nil => 0
  | node _ _ _ left right => 1 + max left.levels right.levels

def entries : Tree α κ → List (α × κ)
  | nil => []
  | node addr key _ left right => left.entries ++ (addr, key) :: right.entries

def Positive : Tree α κ → Prop
  | nil => True
  | node _ _ h left right => 0 < h ∧ left.Positive ∧ right.Positive

/-- Every stored height is the height, and the heights of the two children of a node
differ by at most one. -/
def IsAvl : Tree α κ → Prop
  | nil => True
  | node _ _ h left right =>
    left.IsAvl ∧ right.IsAvl ∧ h = 1 + max left.levels right.levels ∧
      left.levels ≤ right.levels + 1 ∧ right.levels ≤ left.levels + 1

/-- The rotation of a node towards the lower side, with the change of the stored
height at its place. -/
def rotate (side : Bool) (tree : Tree α κ) : Tree α κ × Int :=
  match side, tree with
  | false, node addr key h (node x keyX _ z y) right =>
    if z.height < y.height then
      match y with
      | nil => (tree, 0)
      | node y keyY hY yLeft yRight =>
        (node y keyY (hY + 1) (node x keyX hY z yLeft) (node addr key hY yRight right), hY + 1 - h)
    else
      (node x keyX (y.height + 2) z (node addr key (y.height + 1) y right), y.height + 2 - h)
  | true, node addr key h left (node x keyX _ y z) =>
    if z.height < y.height then
      match y with
      | nil => (tree, 0)
      | node y keyY hY yLeft yRight =>
        (node y keyY (hY + 1) (node addr key hY left yLeft) (node x keyX hY yRight z), hY + 1 - h)
    else
      (node x keyX (y.height + 2) (node addr key (y.height + 1) left y) z, y.height + 2 - h)
  | _, tree => (tree, 0)

/-- The node balanced by the stored heights of its children, with the change of its
stored height. -/
def balance (tree : Tree α κ) : Tree α κ × Int :=
  match tree with
  | nil => (nil, 0)
  | node addr key h left right =>
    if left.height - right.height < 2 ∧ right.height - left.height < 2 then
      (node addr key (1 + max left.height right.height) left right,
        1 + max left.height right.height - h)
    else rotate (decide (left.height < right.height)) tree

def rebalance (tree : Tree α κ) : Tree α κ × Bool :=
  (tree.balance.1, decide (tree.balance.2 ≠ 0))

end Tree

namespace Frame

def fill (frame : Frame α κ) (tree : Tree α κ) : Tree α κ :=
  if frame.right then .node frame.addr frame.key frame.h frame.sibling tree
  else .node frame.addr frame.key frame.h tree frame.sibling

def rejoin (frame : Frame α κ) (subtree : Tree α κ × Bool) : Tree α κ × Bool :=
  if subtree.2 then (frame.fill subtree.1).rebalance else (frame.fill subtree.1, false)

end Frame

namespace Tree

def insert (cmp : κ → κ → Int) (addr : α) (newKey : κ) : Tree α κ → Tree α κ × Bool
  | nil => (node addr newKey 1 nil nil, true)
  | node other key h left right =>
    if cmp newKey key = 0 then (node other key h left right, false)
    else if 0 < cmp newKey key then
      Frame.rejoin ⟨other, key, h, true, left⟩ (insert cmp addr newKey right)
    else Frame.rejoin ⟨other, key, h, false, right⟩ (insert cmp addr newKey left)

def last (addr : α) (key : κ) (h : Int) : Tree α κ → α × κ × Int
  | nil => (addr, key, h)
  | node addr key h _ right => last addr key h right

def removeLast : Tree α κ → Tree α κ × Bool
  | nil => (nil, false)
  | node _ _ _ left nil => (left, true)
  | node addr key h left right => Frame.rejoin ⟨addr, key, h, true, left⟩ right.removeLast

def splice (addr : α) (key : κ) (h : Int) (left inner right : Tree α κ) : Tree α κ :=
  node (last addr key h inner).1 (last addr key h inner).2.1 (last addr key h inner).2.2
    (node addr key h left inner.removeLast.1) right

/-- The subtree that takes the place of the parent of the two subtrees. -/
def join (left right : Tree α κ) : Tree α κ × Bool :=
  match left, right with
  | nil, nil => (nil, true)
  | nil, right => right.rebalance
  | left, nil => left.rebalance
  | node addr key h left nil, right => (node addr key h left right).rebalance
  | node addr key h left inner, right =>
    if inner.removeLast.2 then (splice addr key h left inner right).rebalance
    else (splice addr key h left inner right, false)

def delete (cmp : κ → κ → Int) (oldKey : κ) : Tree α κ → Tree α κ × Bool
  | nil => (nil, false)
  | node addr key h left right =>
    if cmp oldKey key = 0 then join left right
    else if 0 < cmp oldKey key then
      Frame.rejoin ⟨addr, key, h, true, left⟩ (delete cmp oldKey right)
    else Frame.rejoin ⟨addr, key, h, false, right⟩ (delete cmp oldKey left)

/-! ### What balancing does -/

/-- The outcomes of `balance`: the node keeps its place, or one of the four rotations. -/
inductive Balanced : Tree α κ → Tree α κ × Int → Prop
  | level {addr : α} {key : κ} {h : Int} {left right : Tree α κ}
      (leftLow : left.height - right.height < 2) (rightLow : right.height - left.height < 2) :
      Balanced (node addr key h left right)
        (node addr key (1 + max left.height right.height) left right,
          1 + max left.height right.height - h)
  | single {addr x : α} {key keyX : κ} {h hX : Int} {y z right : Tree α κ}
      (high : right.height + 2 ≤ hX) (outer : y.height ≤ z.height) :
      Balanced (node addr key h (node x keyX hX z y) right)
        (node x keyX (y.height + 2) z (node addr key (y.height + 1) y right), y.height + 2 - h)
  | double {addr x y : α} {key keyX keyY : κ} {h hX hY : Int}
      {z yLeft yRight right : Tree α κ} (high : right.height + 2 ≤ hX)
      (inner : z.height < hY) :
      Balanced (node addr key h (node x keyX hX z (node y keyY hY yLeft yRight)) right)
        (node y keyY (hY + 1) (node x keyX hY z yLeft) (node addr key hY yRight right), hY + 1 - h)
  | singleMirrored {addr x : α} {key keyX : κ} {h hX : Int} {y z left : Tree α κ}
      (high : left.height + 2 ≤ hX) (outer : y.height ≤ z.height) :
      Balanced (node addr key h left (node x keyX hX y z))
        (node x keyX (y.height + 2) (node addr key (y.height + 1) left y) z, y.height + 2 - h)
  | doubleMirrored {addr x y : α} {key keyX keyY : κ} {h hX hY : Int}
      {z yLeft yRight left : Tree α κ} (high : left.height + 2 ≤ hX)
      (inner : z.height < hY) :
      Balanced (node addr key h left (node x keyX hX (node y keyY hY yLeft yRight) z))
        (node y keyY (hY + 1) (node addr key hY left yLeft) (node x keyX hY yRight z), hY + 1 - h)

variable {tree : Tree α κ}

theorem Positive.height_nonneg (pos : tree.Positive) : 0 ≤ tree.height := by
  cases tree with
  | nil => exact le_rfl
  | node addr key h left right => exact pos.1.le

theorem balanced_balance {addr : α} {key : κ} {h : Int} {left right : Tree α κ}
    (leftPos : left.Positive) (rightPos : right.Positive) :
    Balanced (node addr key h left right) (node addr key h left right).balance := by
  have leftNonneg := leftPos.height_nonneg
  have rightNonneg := rightPos.height_nonneg
  simp only [balance]
  split_ifs with level
  · exact .level level.1 level.2
  by_cases side : left.height < right.height
  · cases right with
    | nil =>
      simp only [height_nil] at side
      omega
    | node x keyX hX y z =>
      have high : left.height + 2 ≤ hX := by
        simp only [height_node] at level side
        omega
      rw [decide_eq_true side]
      simp only [rotate]
      split_ifs with inner
      · cases y with
        | nil =>
          have nonneg := rightPos.2.2.height_nonneg
          simp only [height_nil] at inner
          omega
        | node y keyY hY yLeft yRight => exact .doubleMirrored high inner
      · exact .singleMirrored high (by omega)
  cases left with
  | nil =>
    simp only [height_nil] at level side
    omega
  | node x keyX hX z y =>
    have high : right.height + 2 ≤ hX := by
      simp only [height_node] at level side
      omega
    rw [decide_eq_false side]
    simp only [rotate]
    split_ifs with inner
    · cases y with
      | nil =>
        have nonneg := leftPos.2.1.height_nonneg
        simp only [height_nil] at inner
        omega
      | node y keyY hY yLeft yRight => exact .double high inner
    · exact .single high (by omega)

variable {outcome : Tree α κ × Int}

theorem Balanced.entries_eq
    (balanced : Balanced tree outcome) : outcome.1.entries = tree.entries := by
  cases balanced <;> simp [entries]

theorem Balanced.positive (balanced : Balanced tree outcome) (pos : tree.Positive) :
    outcome.1.Positive := by
  cases balanced with
  | level =>
    rcases pos with ⟨_, left, right⟩
    have nonneg := left.height_nonneg
    exact ⟨by omega, left, right⟩
  | single =>
    rcases pos with ⟨_, ⟨_, z, y⟩, right⟩
    have nonneg := y.height_nonneg
    exact ⟨by omega, z, by omega, y, right⟩
  | double =>
    rcases pos with ⟨_, ⟨_, z, hY, yLeft, yRight⟩, right⟩
    exact ⟨by omega, ⟨hY, z, yLeft⟩, hY, yRight, right⟩
  | singleMirrored =>
    rcases pos with ⟨_, left, _, y, z⟩
    have nonneg := y.height_nonneg
    exact ⟨by omega, ⟨by omega, left, y⟩, z⟩
  | doubleMirrored =>
    rcases pos with ⟨_, left, _, ⟨hY, yLeft, yRight⟩, z⟩
    exact ⟨by omega, ⟨hY, left, yLeft⟩, hY, yRight, z⟩

theorem rebalance_keeps (pos : tree.Positive) :
    tree.rebalance.1.entries = tree.entries ∧ tree.rebalance.1.Positive := by
  cases tree with
  | nil => exact ⟨rfl, trivial⟩
  | node addr key h left right =>
    have balanced : Balanced (node addr key h left right) _ :=
      balanced_balance pos.2.1 pos.2.2
    exact ⟨balanced.entries_eq, balanced.positive pos⟩

end Tree

end Mlibc.Search
