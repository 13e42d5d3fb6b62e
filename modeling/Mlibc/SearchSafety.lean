import Mlibc.SearchDeleteRefinement
import Mlibc.SearchTreeDelete

/-! # The search tree as a set and as an AVL tree -/

namespace Mlibc.Search

open List Tree TransitionSystem

variable {α κ : Type} [DecidableEq α]

def treeAt (store : Store α κ) : Nat → Option α → Option (Tree α κ)
  | _, none => some .nil
  | 0, some _ => none
  | steps + 1, some addr => do
      let node ← store.load addr
      let left ← treeAt store steps node.left
      let right ← treeAt store steps node.right
      return .node addr node.key node.h left right

def Store.tree (store : Store α κ) : Option (Tree α κ) :=
  treeAt store (fuel store) store.root

variable {tree : Tree α κ} {store : Store α κ}

theorem treeAt_eq (stored : Stored store tree)
    {steps : Nat} (enough : tree.entries.length ≤ steps) :
    treeAt store steps tree.ptr = some tree := by
  induction tree generalizing steps with
  | nil => cases steps <;> rfl
  | node addr key h left right ihLeft ihRight =>
    rcases stored with ⟨loads, storedLeft, storedRight⟩
    simp only [entries, length_append, length_cons] at enough
    cases steps with
    | zero => omega
    | succ steps =>
      simp [treeAt, loads, ihLeft storedLeft (by omega : left.entries.length ≤ steps),
        ihRight storedRight (by omega : right.entries.length ≤ steps)]

theorem Holds.tree_eq (holds : Holds store [] tree) : store.tree = some tree := by
  rw [Store.tree, show store.root = tree.ptr from holds.storedPath]
  exact treeAt_eq holds.stored holds.length_lt_fuel.le

/-! ### Sequences of calls -/

/-- The calls of a program. -/
inductive Call (α κ : Type) where
  | tsearch (key : κ) (alloc : Option α)
  | tfind (key : κ)
  | tdelete (key : κ)
  deriving DecidableEq

/-- The memory, if no call has left it, and the keys that have been inserted and not
deleted since. -/
structure State (α κ : Type) where
  store : Option (Store α κ)
  keys : Set κ

def Member (cmp : κ → κ → Int) (key : κ) (keys : Set κ) : Prop :=
  ∃ other ∈ keys, cmp key other = 0

def Call.keysAfter (cmp : κ → κ → Int) (keys : Set κ) : Call α κ → Set κ
  | .tsearch key alloc =>
    {other | other ∈ keys ∨ other = key ∧ alloc ≠ none ∧ ¬ Member cmp key keys}
  | .tfind _ => keys
  | .tdelete key => {other | other ∈ keys ∧ cmp key other ≠ 0}

def Call.execute (cmp : κ → κ → Int) (store : Store α κ) : Call α κ → Option (Store α κ)
  | .tsearch key alloc => (Search.tsearch cmp store key alloc).map Prod.fst
  | .tfind key => (Search.tfind cmp store key).map fun _ => store
  | .tdelete key => (Search.tdelete cmp store key).map Prod.fst

def Call.Fresh (store : Store α κ) : Call α κ → Prop
  | .tsearch _ alloc => ∀ addr ∈ alloc, addr ∉ store.nodes
  | _ => True

instance (store : Store α κ) : DecidablePred (Call.Fresh store)
  | .tsearch _ alloc =>
    inferInstanceAs (Decidable (∀ addr ∈ alloc, addr ∉ store.nodes))
  | .tfind _ => .isTrue trivial
  | .tdelete _ => .isTrue trivial

def system (cmp : κ → κ → Int) : TransitionSystem (State α κ) (Call α κ) where
  initial s := s.store = some ⟨none, ∅⟩ ∧ s.keys = ∅
  step s call :=
    match s.store with
    | none => none
    | some store =>
      if call.Fresh store then
        some ⟨call.execute cmp store, call.keysAfter cmp s.keys⟩
      else none

def KeepsBalance (cmp : κ → κ → Int) (s : State α κ) : Call α κ → Prop
  | .tdelete key =>
    ∀ tree ∈ s.store.bind Store.tree, tree.DeletesBalanced cmp key none
  | _ => True

/-! ### One call -/

def Tree.keys (tree : Tree α κ) : List κ := tree.entries.map Prod.snd

def Call.treeAfter (cmp : κ → κ → Int) (tree : Tree α κ) : Call α κ → Tree α κ
  | .tsearch key (some addr) => (tree.insert cmp addr key).1
  | .tdelete key => (tree.delete cmp key).1
  | _ => tree

/-- The memory holds a search tree with the keys. -/
structure Represents (cmp : κ → κ → Int) (keys : Set κ) (store : Store α κ)
    (tree : Tree α κ) : Prop where
  holds : Holds store [] tree
  positive : tree.Positive
  sorted : tree.Sorted cmp
  keys : ∀ key, key ∈ tree.keys ↔ key ∈ keys

variable {cmp : κ → κ → Int} {keys : Set κ}

section Call

variable (rep : Represents cmp keys store tree) (order : IsComparison cmp)
include rep

theorem Represents.contains_iff (key : κ) : tree.Contains cmp key ↔ Member cmp key keys := by
  constructor
  · rintro ⟨entry, mem, equal⟩
    exact ⟨entry.2, (rep.keys _).mp (mem_map_of_mem mem), equal⟩
  · rintro ⟨other, mem, equal⟩
    rcases mem_map.mp ((rep.keys _).mpr mem) with ⟨entry, inTree, rfl⟩
    exact ⟨entry, inTree, equal⟩

include order

theorem Represents.absent_iff (key : κ) :
    (descend cmp key [] tree).2 = .nil ↔ ¬ Member cmp key keys :=
  (descend_absent order rep.sorted).trans (rep.contains_iff key).not

theorem Represents.insert_keys {key : κ} (absent : ¬ Member cmp key keys) (addr : α) (other : κ) :
    other ∈ (tree.insert cmp addr key).1.keys ↔ other ∈ keys ∨ other = key := by
  rw [← rep.contains_iff] at absent
  rcases insert_entries order addr rep.positive rep.sorted absent with
    ⟨smaller, larger, split, inserted, _⟩
  rw [← rep.keys]
  simp only [Tree.keys, split, inserted, map_append, map_cons, mem_append, mem_cons]
  tauto

theorem Represents.delete_keys (key other : κ) :
    other ∈ (tree.delete cmp key).1.keys ↔ other ∈ keys ∧ cmp key other ≠ 0 := by
  rw [← rep.keys, Tree.keys, Tree.delete_entries order rep.positive rep.sorted]
  simp only [Tree.keys, mem_map, mem_filter, decide_eq_true_eq]
  constructor
  · rintro ⟨entry, ⟨mem, apart⟩, rfl⟩
    exact ⟨⟨entry, mem, rfl⟩, apart⟩
  · rintro ⟨⟨entry, mem, rfl⟩, apart⟩
    exact ⟨entry, ⟨mem, apart⟩, rfl⟩

theorem Represents.tsearch_present {key : κ} (present : Member cmp key keys) (alloc : Option α) :
    ∃ addr nodeKey, tsearch cmp store key alloc = some (store, some addr) ∧
      (addr, nodeKey) ∈ tree.entries ∧ cmp key nodeKey = 0 := by
  cases found : (descend cmp key [] tree).2 with
  | nil => exact absurd present ((rep.absent_iff order key).mp found)
  | node addr nodeKey h left right =>
    rcases descend_found cmp key [] tree found with ⟨equal, mem⟩
    refine ⟨addr, nodeKey, ?_, mem, equal⟩
    simp [tsearch, searchLoop_root rep.holds, found]

theorem Represents.tsearch_absent {key : κ} (absent : ¬ Member cmp key keys)
    {alloc : Option α} (fresh : ∀ addr ∈ alloc, addr ∉ store.nodes) :
    ∃ next, tsearch cmp store key alloc = some (next, alloc) ∧
      Represents cmp ((Call.tsearch key alloc).keysAfter cmp keys) next
        ((Call.tsearch key alloc).treeAfter cmp tree) := by
  have noNode := (rep.absent_iff order key).mpr absent
  cases alloc with
  | none =>
    refine ⟨store, tsearch_failed rep.holds noNode, rep.holds, rep.positive, rep.sorted, ?_⟩
    simp [Call.keysAfter, Call.treeAfter, rep.keys]
  | some addr =>
    rcases tsearch_inserted rep.holds rep.positive noNode
        (Finmap.lookup_eq_none.mpr (fresh addr rfl)) with ⟨next, searches, newHolds⟩
    refine ⟨next, searches, newHolds, insert_positive addr key rep.positive,
      insert_sorted order addr rep.positive rep.sorted, ?_⟩
    intro other
    rw [Call.treeAfter, rep.insert_keys order absent]
    simp [Call.keysAfter, absent]

theorem Represents.tdelete (key : κ) : ∃ next result, tdelete cmp store key = some (next, result) ∧
      (result = none ↔ ¬ Member cmp key keys) ∧
      Represents cmp ((Call.tdelete key : Call α κ).keysAfter cmp keys) next
        (tree.delete cmp key).1 := by
  have keysAfter := rep.delete_keys order key
  have pos : (tree.delete cmp key).1.Positive :=
    delete_positive key rep.positive
  have sorted : (tree.delete cmp key).1.Sorted cmp :=
    delete_sorted order rep.positive rep.sorted
  by_cases absent : (descend cmp key [] tree).2 = .nil
  · have unchanged : (tree.delete cmp key).1 = tree := by
      have deletes := climb_delete cmp key [] tree
      have whole := plug_descend cmp key [] tree
      rw [absent] at deletes whole
      rw [delete, climb_silent, whole] at deletes
      exact congrArg Prod.fst deletes.symm
    refine ⟨store, none, tdelete_absent rep.holds absent,
      iff_of_true rfl ((rep.absent_iff order key).mp absent), ?_, pos, sorted,
      keysAfter⟩
    rw [unchanged]
    exact rep.holds
  · rcases tdelete_found rep.holds rep.positive absent with
      ⟨next, result, deletes, newHolds⟩
    refine ⟨next, some result, deletes, iff_of_false (by simp) ?_, newHolds, pos, sorted, keysAfter⟩
    exact (rep.absent_iff order key).not.mp absent

theorem Represents.execute {call : Call α κ} (fresh : call.Fresh store) :
    ∃ next, call.execute cmp store = some next ∧
      Represents cmp (call.keysAfter cmp keys) next (call.treeAfter cmp tree) := by
  cases call with
  | tsearch key alloc =>
    by_cases present : Member cmp key keys
    · rcases rep.tsearch_present order present alloc with ⟨addr, _, searches, _⟩
      have contains := (rep.contains_iff key).mpr present
      have sameTree : (Call.tsearch key alloc).treeAfter cmp tree = tree := by
        cases alloc with
        | none => rfl
        | some addr => 
          rw [Call.treeAfter, insert_of_contains order addr rep.sorted contains]
      have sameKeys : (Call.tsearch key alloc).keysAfter cmp keys = keys := by
        simp [Call.keysAfter, present]
      rw [sameTree, sameKeys]
      exact ⟨store, by simp [Call.execute, searches], rep⟩
    · rcases rep.tsearch_absent order present fresh with ⟨next, searches, after⟩
      exact ⟨next, by simp [Call.execute, searches], after⟩
  | tfind key => exact ⟨store, by simp [Call.execute, tfind_eq rep.holds], rep⟩
  | tdelete key =>
    rcases rep.tdelete order key with ⟨next, result, deletes, _, after⟩
    exact ⟨next, by simp [Call.execute, deletes], after⟩

end Call

/-! ### All calls -/

section System

variable (order : IsComparison cmp)
include order

theorem reachable_represents {allowed : State α κ → Call α κ → Prop}
    (property : Tree α κ → Prop) (empty : property .nil)
    (preserved : ∀ s call tree, allowed s call →
      s.store.bind Store.tree = some tree → property tree →
      property (call.treeAfter cmp tree))
    {s : State α κ} (reach : (system cmp).ReachableVia allowed s) :
    ∃ store tree, s.store = some store ∧ Represents cmp s.keys store tree ∧ property tree := by
  apply reach.invariant
  · rintro ⟨store, keys⟩ ⟨rfl, rfl⟩
    refine ⟨_, .nil, rfl, ⟨⟨trivial, rfl, nodup_nil⟩, trivial, List.Pairwise.nil, ?_⟩, empty⟩
    simp [Tree.keys, Tree.entries]
  rintro ⟨_, keys⟩ call next ⟨store, tree, rfl, rep, holdsBefore⟩ meets steps
  simp only [system] at steps
  split_ifs at steps with fresh
  rcases rep.execute order fresh with ⟨after, executes, newRepresents⟩
  rw [executes] at steps
  cases steps
  exact ⟨after, _, rfl, newRepresents, preserved _ call tree meets rep.holds.tree_eq holdsBefore⟩

end System

/-- The memory holds a search tree whose keys are strictly increasing and are the given
ones. -/
def HoldsKeys (cmp : κ → κ → Int) (store : Store α κ) (keys : Set κ) : Prop :=
  ∃ tree, Holds store [] tree ∧ tree.keys.Pairwise (fun first second => cmp first second < 0) ∧
    ∀ key, key ∈ tree.keys ↔ key ∈ keys

/-- The functions answer as those of the set. -/
structure ImplementsSet (cmp : κ → κ → Int) (store : Store α κ) (keys : Set κ) : Prop where
  holds : HoldsKeys cmp store keys
  find : ∀ key, ∃ result, tfind cmp store key = some result ∧ (result ≠ none ↔ Member cmp key keys)
  searchPresent : ∀ key alloc, Member cmp key keys →
    ∃ addr node, tsearch cmp store key alloc = some (store, some addr) ∧
      store.load addr = some node ∧ cmp key node.key = 0
  searchAbsent : ∀ key alloc, ¬ Member cmp key keys → (∀ addr ∈ alloc, addr ∉ store.nodes) →
    ∃ next, tsearch cmp store key alloc = some (next, alloc) ∧
      HoldsKeys cmp next {other | other ∈ keys ∨ other = key ∧ alloc ≠ none} ∧
      ∀ addr ∈ alloc, ∃ node, next.load addr = some node ∧ node.key = key
  delete : ∀ key, ∃ next result, tdelete cmp store key = some (next, result) ∧
    (result = none ↔ ¬ Member cmp key keys) ∧
    HoldsKeys cmp next {other | other ∈ keys ∧ cmp key other ≠ 0}

theorem Represents.holdsKeys (rep : Represents cmp keys store tree) : HoldsKeys cmp store keys :=
  ⟨tree, rep.holds, pairwise_map.mpr rep.sorted, rep.keys⟩

theorem Stored.load_entry (stored : Stored store tree)
    {entry : α × κ} (mem : entry ∈ tree.entries) :
    ∃ node, store.load entry.1 = some node ∧ node.key = entry.2 := by
  induction tree with
  | nil => cases mem
  | node addr key h left right ihLeft ihRight =>
    rcases stored with ⟨loads, storedLeft, storedRight⟩
    simp only [entries, mem_append, mem_cons] at mem
    rcases mem with inLeft | rfl | inRight
    · exact ihLeft storedLeft inLeft
    · exact ⟨_, loads, rfl⟩
    · exact ihRight storedRight inRight

/-- After every sequence of calls the tree has exactly the keys that were inserted and not deleted
since, in strictly increasing order, and the results are those of the set. -/
theorem search_implements_set (cmp : κ → κ → Int) (order : IsComparison cmp)
    (s : State α κ) (reach : (system cmp).Reachable s) :
    ∃ store, s.store = some store ∧ ImplementsSet cmp store s.keys := by
  rcases reachable_represents order (fun _ => True) trivial
      (fun _ _ _ _ _ _ => trivial) reach with ⟨store, tree, inMemory, rep, _⟩
  refine ⟨store, inMemory, rep.holdsKeys, ?_, ?_, ?_, ?_⟩
  · intro key
    refine ⟨_, tfind_eq rep.holds key, ?_⟩
    rw [← not_iff_not, ← rep.absent_iff order key]
    cases (descend cmp key [] tree).2 <;> simp
  · intro key alloc present
    rcases rep.tsearch_present order present alloc with
      ⟨addr, nodeKey, searches, mem, equal⟩
    rcases rep.holds.stored.load_entry mem with ⟨node, loads, sameKey⟩
    exact ⟨addr, node, searches, loads, sameKey ▸ equal⟩
  · intro key alloc absent fresh
    rcases rep.tsearch_absent order absent fresh with ⟨next, searches, after⟩
    refine ⟨next, searches, ?_, ?_⟩
    · simpa [Call.keysAfter, absent] using after.holdsKeys
    intro addr isAllocated
    cases isAllocated
    rcases insert_entries order addr rep.positive rep.sorted
      ((rep.contains_iff key).not.mpr absent) with ⟨_, _, _, inserted, _⟩
    have mem : (addr, key) ∈ (tree.insert cmp addr key).1.entries := by
      simp [inserted]
    exact after.holds.stored.load_entry mem
  · intro key
    rcases rep.tdelete order key with ⟨next, result, deletes, absent, after⟩
    exact ⟨next, result, deletes, absent, after.holdsKeys⟩

def compareInts (first second : Int) : Int := first - second

theorem isComparison_compareInts : IsComparison compareInts where
  swap first second := by
    unfold compareInts
    omega
  trans first second third := by
    unfold compareInts
    omega

def fourKeys : List (Call Nat Int) :=
  [.tsearch 2 (some 12), .tsearch 1 (some 11), .tsearch 3 (some 13), .tsearch 4 (some 14),
    .tdelete 3]

theorem search_implements_set_fourKeys :
    ∃ s : State Nat Int, ∃ store, (system compareInts).Reachable s ∧
      s.store = some store ∧ tfind compareInts store 3 = some none ∧
      tfind compareInts store 4 = some (some 14) ∧
      ImplementsSet compareInts store s.keys := by
  have runs : ∃ s : State Nat Int, ∃ store, (system compareInts).run (fun _ _ => True)
      ⟨some ⟨none, ∅⟩, ∅⟩ fourKeys = some s ∧ s.store = some store ∧
      tfind compareInts store 3 = some none ∧ tfind compareInts store 4 = some (some 14) :=
    ⟨_, _, rfl, rfl, rfl, rfl⟩
  rcases runs with ⟨s, store, runs, inMemory, absent, present⟩
  have reach := reachable_of_run runs ⟨rfl, rfl⟩
  rcases search_implements_set compareInts isComparison_compareInts s reach with
    ⟨sameStore, sameMemory, implements⟩
  cases inMemory.symm.trans sameMemory
  exact ⟨s, store, reach, inMemory, absent, present, implements⟩

/-! ### Balance -/

/-- As long as every deletion does no harm, the memory holds an AVL tree, and a deletion leaves an
AVL tree exactly if it does no harm. -/
theorem search_keeps_avl_iff (cmp : κ → κ → Int) (order : IsComparison cmp)
    (s : State α κ) (reach : (system cmp).ReachableVia (KeepsBalance cmp) s) :
    ∃ store tree, s.store = some store ∧ Holds store [] tree ∧ tree.Sorted cmp ∧ tree.IsAvl ∧
      ∀ key, ∃ next result newTree, tdelete cmp store key = some (next, result) ∧
        Holds next [] newTree ∧
        (newTree.IsAvl ↔ KeepsBalance cmp s (.tdelete key)) := by
  have step {s : State α κ} {call : Call α κ} {tree : Tree α κ} (keeps : KeepsBalance cmp s call)
      (inMemory : s.store.bind Store.tree = some tree) (avl : tree.IsAvl) :
      (call.treeAfter cmp tree).IsAvl := by
    cases call with
    | tsearch key alloc =>
      cases alloc with
      | none => exact avl
      | some addr => exact (insert_adjusted addr key avl).avl
    | tfind key => exact avl
    | tdelete key => exact (delete_avl_iff avl).mpr (keeps tree inMemory)
  rcases reachable_represents order Tree.IsAvl trivial (fun _ _ _ => step) reach with
    ⟨store, tree, inMemory, rep, avl⟩
  refine ⟨store, tree, inMemory, rep.holds, rep.sorted, avl, ?_⟩
  intro key
  rcases rep.tdelete order key with ⟨next, result, deletes, _, after⟩
  refine ⟨next, result, _, deletes, after.holds, (delete_avl_iff avl).trans ?_⟩
  have treeEq : s.store.bind Store.tree = some tree := by
    rw [inMemory]
    exact rep.holds.tree_eq
  simp [KeepsBalance, treeEq]

instance (cmp : κ → κ → Int) (s : State α κ) : DecidablePred (KeepsBalance cmp s)
  | .tsearch _ _ => .isTrue trivial
  | .tfind _ => .isTrue trivial
  | .tdelete key => inferInstanceAs (Decidable
      (∀ tree ∈ s.store.bind Store.tree, tree.DeletesBalanced cmp key none))

theorem search_keeps_avl_deleted_root : ∃ s : State Nat Int, ∃ store tree,
      (system compareInts).ReachableVia (KeepsBalance compareInts) s ∧
      s.store = some store ∧ Holds store [] tree ∧ tree.IsAvl ∧
      tree = .node 13 3 2 (.node 11 1 1 .nil .nil) (.node 14 4 1 .nil .nil) := by
  have runs : ∃ s : State Nat Int, ∃ store,
      (system compareInts).run (KeepsBalance compareInts) ⟨some ⟨none, ∅⟩, ∅⟩
        [.tsearch 2 (some 12), .tsearch 1 (some 11), .tsearch 3 (some 13),
          .tsearch 4 (some 14), .tdelete 2] = some s ∧ s.store = some store ∧
      store.tree = some (.node 13 3 2 (.node 11 1 1 .nil .nil) (.node 14 4 1 .nil .nil)) :=
    ⟨_, _, rfl, rfl, rfl⟩
  rcases runs with ⟨s, store, runs, inMemory, treeEq⟩
  have reach := reachable_of_run runs ⟨rfl, rfl⟩
  rcases search_keeps_avl_iff compareInts isComparison_compareInts s reach with
    ⟨sameStore, tree, sameMemory, holds, _, avl, _⟩
  cases inMemory.symm.trans sameMemory
  cases treeEq.symm.trans holds.tree_eq
  exact ⟨s, store, _, reach, inMemory, holds, avl, rfl⟩

/-- The deletion of a node with one child next to a lower sibling leaves a wrong height at
its parent. -/
theorem search_loses_height : ∃ s : State Nat Int, ∃ store tree, (system compareInts).Reachable s ∧
      s.store = some store ∧ store.tree = some tree ∧
      tree = .node 12 2 3 (.node 11 1 1 .nil .nil) (.node 14 4 1 .nil .nil) ∧ ¬ tree.IsAvl := by
  have runs : ∃ s : State Nat Int, ∃ store, (system compareInts).run (fun _ _ => True)
      ⟨some ⟨none, ∅⟩, ∅⟩ fourKeys = some s ∧ s.store = some store ∧
      store.tree = some (.node 12 2 3 (.node 11 1 1 .nil .nil) (.node 14 4 1 .nil .nil)) :=
    ⟨_, _, rfl, rfl, rfl⟩
  rcases runs with ⟨s, store, runs, inMemory, treeEq⟩
  refine ⟨s, store, _, reachable_of_run runs ⟨rfl, rfl⟩, inMemory, treeEq, rfl, ?_⟩
  simp [Tree.IsAvl]

end Mlibc.Search
