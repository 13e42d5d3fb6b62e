import Mlibc.SearchTree

/-! # The order of a search tree -/

namespace Mlibc.Search

open List Frame

/-- The comparison function of a total preorder. -/
structure IsComparison {κ : Type*} (cmp : κ → κ → Int) : Prop where
  swap : ∀ first second, 0 < cmp first second ↔ cmp second first < 0
  trans : ∀ first second third, cmp first second ≤ 0 → cmp second third ≤ 0 → cmp first third ≤ 0

variable {α κ : Type*} {cmp : κ → κ → Int}

theorem IsComparison.lt_of_lt_of_le (order : IsComparison cmp) {first second third : κ}
    (lt : cmp first second < 0) (le : cmp second third ≤ 0) :
    cmp first third < 0 := by
  by_contra notLt
  have back : cmp third first ≤ 0 := by
    have swapped := order.swap third first
    omega
  have impossible := order.trans second third first le back
  have swapped := order.swap second first
  omega

namespace Frame

def before (frame : Frame α κ) : List (α × κ) :=
  if frame.right then frame.sibling.entries ++ [(frame.addr, frame.key)] else []

def after (frame : Frame α κ) : List (α × κ) :=
  if frame.right then [] else (frame.addr, frame.key) :: frame.sibling.entries

theorem fill_entries (frame : Frame α κ) (tree : Tree α κ) :
    (frame.fill tree).entries = frame.before ++ tree.entries ++ frame.after := by
  unfold fill before after
  split_ifs <;> simp [Tree.entries]

def Positive (frame : Frame α κ) : Prop := 0 < frame.h ∧ frame.sibling.Positive

variable {frame : Frame α κ}

theorem fill_positive (pos : frame.Positive) {tree : Tree α κ}
    (positiveTree : tree.Positive) : (frame.fill tree).Positive := by
  unfold fill
  split_ifs
  · exact ⟨pos.1, pos.2, positiveTree⟩
  · exact ⟨pos.1, positiveTree, pos.2⟩

variable {subtree : Tree α κ × Bool}

theorem rejoin_entries (pos : frame.Positive) (positiveTree : subtree.1.Positive) :
    (frame.rejoin subtree).1.entries = frame.before ++ subtree.1.entries ++ frame.after := by
  rw [← fill_entries]
  unfold rejoin
  split_ifs
  · exact (Tree.rebalance_keeps (fill_positive pos positiveTree)).1
  · rfl

theorem rejoin_positive (pos : frame.Positive) (positiveTree : subtree.1.Positive) :
    (frame.rejoin subtree).1.Positive := by
  have filled := fill_positive pos positiveTree
  unfold rejoin
  split_ifs
  · exact (Tree.rebalance_keeps filled).2
  · exact filled

end Frame

namespace Tree

/-! ### Insertion -/

variable {tree : Tree α κ}

theorem insert_positive (addr : α) (newKey : κ)
    (pos : tree.Positive) : (tree.insert cmp addr newKey).1.Positive := by
  induction tree with
  | nil => exact ⟨by decide, trivial, trivial⟩
  | node other key h left right ihLeft ihRight =>
    rcases pos with ⟨hPos, leftPos, rightPos⟩
    unfold insert
    split_ifs
    · exact ⟨hPos, leftPos, rightPos⟩
    · exact rejoin_positive ⟨hPos, leftPos⟩ (ihRight rightPos)
    · exact rejoin_positive ⟨hPos, rightPos⟩ (ihLeft leftPos)

def Sorted (cmp : κ → κ → Int) (tree : Tree α κ) : Prop :=
  tree.entries.Pairwise fun first second => cmp first.2 second.2 < 0

def Contains (cmp : κ → κ → Int) (key : κ) (tree : Tree α κ) : Prop :=
  ∃ entry ∈ tree.entries, cmp key entry.2 = 0

theorem sorted_node {addr : α} {key : κ} {h : Int} {left right : Tree α κ} :
    (node addr key h left right).Sorted cmp ↔ left.Sorted cmp ∧ right.Sorted cmp ∧
      (∀ entry ∈ left.entries, cmp entry.2 key < 0) ∧
      (∀ entry ∈ right.entries, cmp key entry.2 < 0) ∧
      ∀ first ∈ left.entries, ∀ second ∈ right.entries, cmp first.2 second.2 < 0 := by
  simp only [Sorted, entries, pairwise_append, pairwise_cons, mem_cons]
  constructor
  · rintro ⟨left, ⟨keyRight, right⟩, across⟩
    exact ⟨left, right, fun entry mem => across entry mem _ (.inl rfl), keyRight,
      fun first mem second other => across first mem second (.inr other)⟩
  rintro ⟨left, right, leftKey, keyRight, across⟩
  refine ⟨left, ⟨keyRight, right⟩, ?_⟩
  rintro first mem second (rfl | other)
  · exact leftKey first mem
  · exact across first mem second other

section Sorted

variable (order : IsComparison cmp) {addr : α} {key other : κ} {h : Int}
  {left right : Tree α κ} (sorted : (node addr key h left right).Sorted cmp)
include order sorted

variable {entry : α × κ}

theorem above_left (above : 0 < cmp other key)
    (mem : entry ∈ left.entries) : 0 < cmp other entry.2 := by
  rw [order.swap] at above ⊢
  exact order.lt_of_lt_of_le ((sorted_node.mp sorted).2.2.1 entry mem) above.le

theorem below_right (below : cmp other key < 0)
    (mem : entry ∈ right.entries) : cmp other entry.2 < 0 :=
  order.lt_of_lt_of_le below ((sorted_node.mp sorted).2.2.2.1 entry mem).le

theorem equal_left (equal : cmp other key = 0)
    (mem : entry ∈ left.entries) : 0 < cmp other entry.2 := by
  have smaller := (sorted_node.mp sorted).2.2.1 entry mem
  have swapped := order.swap key other
  rw [order.swap]
  exact order.lt_of_lt_of_le smaller (by omega)

theorem equal_right (equal : cmp other key = 0)
    (mem : entry ∈ right.entries) : cmp other entry.2 < 0 := by
  have larger := (sorted_node.mp sorted).2.2.2.1 entry mem
  by_contra notBelow
  have notAbove := order.swap entry.2 other
  have impossible := order.trans entry.2 other key (by omega) equal.le
  have swapped := order.swap entry.2 key
  omega

omit order sorted in
theorem contains_node : (node addr key h left right).Contains cmp other ↔
      left.Contains cmp other ∨ cmp other key = 0 ∨ right.Contains cmp other := by
  simp [Tree.Contains, entries, or_and_right, exists_or]

theorem contains_right (above : 0 < cmp other key) :
    (node addr key h left right).Contains cmp other ↔ right.Contains cmp other := by
  rw [contains_node, or_iff_right, or_iff_right above.ne']
  rintro ⟨entry, inLeft, equal⟩
  exact (above_left order sorted above inLeft).ne' equal

theorem contains_left (below : cmp other key < 0) :
    (node addr key h left right).Contains cmp other ↔ left.Contains cmp other := by
  rw [contains_node, or_iff_left]
  rintro (equal | ⟨entry, inRight, equal⟩)
  · exact below.ne equal
  · exact (below_right order sorted below inRight).ne equal

end Sorted

variable {newKey : κ}

section

variable (order : IsComparison cmp) (addr : α)

include order addr

theorem insert_of_contains (sorted : tree.Sorted cmp) (contains : tree.Contains cmp newKey) :
    tree.insert cmp addr newKey = (tree, false) := by
  induction tree with
  | nil =>
    rcases contains with ⟨entry, mem, _⟩
    cases mem
  | node other key h left right ihLeft ihRight =>
    have parts := sorted_node.mp sorted
    unfold insert
    split_ifs with same above
    · rfl
    · rw [ihRight parts.2.1 ((contains_right order sorted above).mp contains)]
      rfl
    · have below : cmp newKey key < 0 := by omega
      rw [ihLeft parts.1 ((contains_left order sorted below).mp contains)]
      rfl

theorem insert_entries (pos : tree.Positive) (sorted : tree.Sorted cmp)
    (absent : ¬ tree.Contains cmp newKey) :
    ∃ smaller larger, tree.entries = smaller ++ larger ∧
      (tree.insert cmp addr newKey).1.entries = smaller ++ (addr, newKey) :: larger ∧
      (∀ entry ∈ smaller, 0 < cmp newKey entry.2) ∧
      ∀ entry ∈ larger, cmp newKey entry.2 < 0 := by
  induction tree with
  | nil => exact ⟨[], [], rfl, rfl, by simp, by simp⟩
  | node other key h left right ihLeft ihRight =>
    have parts := sorted_node.mp sorted
    rcases pos with ⟨hPos, leftPos, rightPos⟩
    unfold insert
    split_ifs with same above
    · exact absurd ⟨(other, key), by simp [entries], same⟩ absent
    · have absentRight := (contains_right order sorted above).not.mp absent
      rcases ihRight rightPos parts.2.1 absentRight with
        ⟨smaller, larger, split, inserted, below, beyond⟩
      refine ⟨left.entries ++ (other, key) :: smaller, larger, by simp [entries, split], ?_,
        ?_, beyond⟩
      · rw [Frame.rejoin_entries ⟨hPos, leftPos⟩ (insert_positive addr newKey rightPos), inserted]
        simp [Frame.before, Frame.after]
      intro entry mem
      simp only [mem_append, mem_cons] at mem
      rcases mem with inLeft | rfl | inSmaller
      · exact above_left order sorted above inLeft
      · exact above
      · exact below entry inSmaller
    have belowKey : cmp newKey key < 0 := by omega
    have absentLeft := (contains_left order sorted belowKey).not.mp absent
    rcases ihLeft leftPos parts.1 absentLeft with
      ⟨smaller, larger, split, inserted, below, beyond⟩
    refine ⟨smaller, larger ++ (other, key) :: right.entries, by simp [entries, split], ?_,
      below, ?_⟩
    · rw [Frame.rejoin_entries ⟨hPos, rightPos⟩ (insert_positive addr newKey leftPos), inserted]
      simp [Frame.before, Frame.after]
    intro entry mem
    simp only [mem_append, mem_cons] at mem
    rcases mem with inLarger | rfl | inRight
    · exact beyond entry inLarger
    · exact belowKey
    · exact below_right order sorted belowKey inRight

theorem insert_sorted (pos : tree.Positive) (sorted : tree.Sorted cmp) :
    (tree.insert cmp addr newKey).1.Sorted cmp := by
  by_cases contains : tree.Contains cmp newKey
  · rw [insert_of_contains order addr sorted contains]
    exact sorted
  rcases insert_entries order addr pos sorted contains with
    ⟨smaller, larger, split, inserted, below, beyond⟩
  unfold Sorted at sorted ⊢
  rw [split, pairwise_append] at sorted
  rw [inserted, pairwise_append, pairwise_cons]
  refine ⟨sorted.1, ⟨beyond, sorted.2.1⟩, ?_⟩
  intro first mem second other
  rcases mem_cons.mp other with rfl | inLarger
  · exact (order.swap _ _).mp (below first mem)
  · exact sorted.2.2 first mem second inLarger

end

/-! ### Deletion -/

theorem last_positive {addr : α} {key : κ} {h : Int} (hPos : 0 < h)
    (pos : tree.Positive) : 0 < (last addr key h tree).2.2 := by
  induction tree generalizing addr key h with
  | nil => exact hPos
  | node addr key h left right _ ihRight => exact ihRight pos.1 pos.2.2

theorem removeLast_positive (pos : tree.Positive) : tree.removeLast.1.Positive := by
  induction tree with
  | nil => exact trivial
  | node addr key h left right _ ihRight =>
    cases right with
    | nil => exact pos.2.1
    | node => exact rejoin_positive ⟨pos.1, pos.2.1⟩ (ihRight pos.2.2)

theorem removeLast_entries (pos : tree.Positive) (ne : tree ≠ nil) (parent : α)
    (parentKey : κ) (parentH : Int) :
    tree.entries = tree.removeLast.1.entries ++
      [((last parent parentKey parentH tree).1, (last parent parentKey parentH tree).2.1)] := by
  induction tree generalizing parent parentKey parentH with
  | nil => exact absurd rfl ne
  | node addr key h left right _ ihRight =>
    cases right with
    | nil => rfl
    | node innerAddr innerKey innerH innerLeft innerRight =>
      have split := ihRight pos.2.2 (by simp) addr key h
      rw [removeLast, rejoin_entries ⟨pos.1, pos.2.1⟩
        (removeLast_positive pos.2.2), last, entries, split]
      · simp [Frame.before, Frame.after]
      · simp

theorem splice_keeps {addr : α} {key : κ} {h : Int} {left inner right : Tree α κ}
    (leftPos : (node addr key h left inner).Positive) (rightPos : right.Positive)
    (ne : inner ≠ nil) :
    (splice addr key h left inner right).entries =
        (node addr key h left inner).entries ++ right.entries ∧
      (splice addr key h left inner right).Positive := by
  rcases leftPos with ⟨hPos, leftPos, positiveInner⟩
  constructor
  · have split := removeLast_entries positiveInner ne addr key h
    simp [splice, entries, split]
  · exact ⟨last_positive hPos positiveInner,
      ⟨hPos, leftPos, removeLast_positive positiveInner⟩, rightPos⟩

theorem join_keeps {left right : Tree α κ} (leftPos : left.Positive) (rightPos : right.Positive) :
    (join left right).1.entries = left.entries ++ right.entries ∧ (join left right).1.Positive := by
  cases left with
  | nil =>
    cases right with
    | nil => exact ⟨rfl, trivial⟩
    | node => exact rebalance_keeps rightPos
  | node addr key h left inner =>
    cases right with
    | nil => simpa [join, entries] using rebalance_keeps leftPos
    | node otherAddr otherKey otherH otherLeft otherRight =>
      cases inner with
      | nil =>
        have joined : (node addr key h left
            (node otherAddr otherKey otherH otherLeft otherRight)).Positive :=
          ⟨leftPos.1, leftPos.2.1, rightPos⟩
        simpa [join, entries] using rebalance_keeps joined
      | node =>
        have spliced := splice_keeps leftPos rightPos (by simp)
        have balanced := rebalance_keeps spliced.2
        simp only [join]
        split_ifs
        · exact ⟨balanced.1.trans spliced.1, balanced.2⟩
        · exact spliced

theorem delete_positive (oldKey : κ) (pos : tree.Positive) :
    (tree.delete cmp oldKey).1.Positive := by
  induction tree with
  | nil => exact trivial
  | node addr key h left right ihLeft ihRight =>
    rcases pos with ⟨hPos, leftPos, rightPos⟩
    unfold delete
    split_ifs
    · exact (join_keeps leftPos rightPos).2
    · exact rejoin_positive ⟨hPos, leftPos⟩ (ihRight rightPos)
    · exact rejoin_positive ⟨hPos, rightPos⟩ (ihLeft leftPos)

variable (order : IsComparison cmp) (pos : tree.Positive) (sorted : tree.Sorted cmp)

include order pos sorted

theorem delete_entries {oldKey : κ} : (tree.delete cmp oldKey).1.entries =
      tree.entries.filter fun entry => cmp oldKey entry.2 ≠ 0 := by
  induction tree with
  | nil => rfl
  | node addr key h left right ihLeft ihRight =>
    have parts := sorted_node.mp sorted
    rcases pos with ⟨hPos, leftPos, rightPos⟩
    unfold delete
    split_ifs with same above
    · have keptLeft : left.entries.filter (fun entry => cmp oldKey entry.2 ≠ 0) = left.entries := by
        refine filter_eq_self.mpr fun entry mem => ?_
        simpa using (equal_left order sorted same mem).ne'
      have keptRight : right.entries.filter (fun entry => cmp oldKey entry.2 ≠ 0) =
          right.entries := by
        refine filter_eq_self.mpr fun entry mem => ?_
        simpa using (equal_right order sorted same mem).ne
      rw [(join_keeps leftPos rightPos).1, entries, filter_append,
        filter_cons_of_neg (by simpa using same), keptLeft, keptRight]
    · have keptLeft : left.entries.filter (fun entry => cmp oldKey entry.2 ≠ 0) = left.entries := by
        refine filter_eq_self.mpr fun entry mem => ?_
        simpa using (above_left order sorted above mem).ne'
      rw [rejoin_entries ⟨hPos, leftPos⟩
        (delete_positive oldKey rightPos), ihRight rightPos parts.2.1, entries,
        filter_append, filter_cons_of_pos (by simpa using same), keptLeft]
      simp [Frame.before, Frame.after]
    · have below : cmp oldKey key < 0 := by omega
      have keptRight : right.entries.filter (fun entry => cmp oldKey entry.2 ≠ 0) =
          right.entries := by
        refine filter_eq_self.mpr fun entry mem => ?_
        simpa using (below_right order sorted below mem).ne
      rw [rejoin_entries ⟨hPos, rightPos⟩
        (delete_positive oldKey leftPos), ihLeft leftPos parts.1, entries,
        filter_append, filter_cons_of_pos (by simpa using same), keptRight]
      simp [Frame.before, Frame.after]

theorem delete_sorted {oldKey : κ} : (tree.delete cmp oldKey).1.Sorted cmp := by
  unfold Sorted
  rw [delete_entries order pos sorted]
  exact List.Pairwise.filter _ sorted

end Tree

end Mlibc.Search
