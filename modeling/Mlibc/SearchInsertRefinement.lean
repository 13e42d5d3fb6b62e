import Mlibc.SearchBalanceRefinement

/-! # Searching and inserting in memory -/

namespace Mlibc.Search

open Tree

variable {α κ : Type}

/-- The path to the place of a key, continuing a given one, and the subtree there. -/
def descend (cmp : κ → κ → Int) (key : κ) :
    List (Frame α κ) → Tree α κ → List (Frame α κ) × Tree α κ
  | path, .nil => (path, .nil)
  | path, .node addr nodeKey h left right =>
    if cmp key nodeKey = 0 then (path, .node addr nodeKey h left right)
    else if 0 < cmp key nodeKey then
      descend cmp key (⟨addr, nodeKey, h, true, left⟩ :: path) right
    else descend cmp key (⟨addr, nodeKey, h, false, right⟩ :: path) left

section Descend

variable (cmp : κ → κ → Int) (key : κ) (path : List (Frame α κ)) (tree : Tree α κ)

example : path.length ≤ (descend cmp key path tree).1.length := by
  fun_induction descend cmp key path tree with
  | case1 | case2 => exact le_rfl
  | case3 _ _ _ _ _ _ _ _ ih | case4 _ _ _ _ _ _ _ _ ih => exact Nat.le_of_succ_le ih

theorem plug_descend :
    plug (descend cmp key path tree).1 (descend cmp key path tree).2 = plug path tree := by
  fun_induction descend cmp key path tree with
  | case1 | case2 => rfl
  | case3 _ _ _ _ _ _ _ _ ih | case4 _ _ _ _ _ _ _ _ ih => exact ih

theorem climb_insert (addr : α) : climb (descend cmp key path tree).1
        ((descend cmp key path tree).2.insert cmp addr key) =
      climb path (tree.insert cmp addr key) := by
  fun_induction descend cmp key path tree with
  | case1 | case2 => rfl
  | case3 path other nodeKey h left right apart above ih =>
    rw [ih, Tree.insert, if_neg apart, if_pos above]
    rfl
  | case4 path other nodeKey h left right apart notAbove ih =>
    rw [ih, Tree.insert, if_neg apart, if_neg notAbove]
    rfl

theorem climb_delete : climb (descend cmp key path tree).1
        ((descend cmp key path tree).2.delete cmp key) =
      climb path (tree.delete cmp key) := by
  fun_induction descend cmp key path tree with
  | case1 | case2 => rfl
  | case3 path other nodeKey h left right apart above ih =>
    rw [ih, delete, if_neg apart, if_pos above]
    rfl
  | case4 path other nodeKey h left right apart notAbove ih =>
    rw [ih, delete, if_neg apart, if_neg notAbove]
    rfl

theorem descend_found {addr : α} {nodeKey : κ} {h : Int} {left right : Tree α κ}
    (found : (descend cmp key path tree).2 = .node addr nodeKey h left right) :
    cmp key nodeKey = 0 ∧ (addr, nodeKey) ∈ tree.entries := by
  fun_induction descend cmp key path tree with
  | case1 path => cases found
  | case2 path other otherKey otherH otherLeft otherRight same =>
    cases found
    exact ⟨same, by simp [entries]⟩
  | case3 _ _ _ _ _ _ _ _ ih | case4 _ _ _ _ _ _ _ _ ih =>
    exact ⟨(ih found).1, by simp [entries, (ih found).2]⟩

variable {path tree}

theorem descend_positive (pos : tree.Positive) (pathPos : ∀ frame ∈ path, frame.Positive) :
    (descend cmp key path tree).2.Positive ∧
      ∀ frame ∈ (descend cmp key path tree).1, frame.Positive := by
  fun_induction descend cmp key path tree with
  | case1 | case2 => exact ⟨pos, pathPos⟩
  | case3 path other otherKey otherH otherLeft otherRight apart above ih =>
    apply ih pos.2.2
    rintro frame (_ | ⟨_, mem⟩)
    · exact ⟨pos.1, pos.2.1⟩
    · exact pathPos frame mem
  | case4 path other otherKey otherH otherLeft otherRight apart notAbove ih =>
    apply ih pos.2.1
    rintro frame (_ | ⟨_, mem⟩)
    · exact ⟨pos.1, pos.2.2⟩
    · exact pathPos frame mem

variable {cmp key}

theorem descend_absent (order : IsComparison cmp) (sorted : tree.Sorted cmp) :
    (descend cmp key path tree).2 = .nil ↔ ¬ tree.Contains cmp key := by
  fun_induction descend cmp key path tree with
  | case1 path => simp [Tree.Contains, entries]
  | case2 path addr nodeKey h left right same =>
    refine iff_of_false (by simp) (not_not.mpr ⟨(addr, nodeKey), ?_, same⟩)
    simp [entries]
  | case3 path addr nodeKey h left right apart above ih =>
    rw [ih (sorted_node.mp sorted).2.1, contains_right order sorted above]
  | case4 path addr nodeKey h left right apart notAbove ih =>
    have below : cmp key nodeKey < 0 := by omega
    rw [ih (sorted_node.mp sorted).1, contains_left order sorted below]

variable [DecidableEq α] {store : Store α κ}

theorem descend_holds : Holds store (descend cmp key path tree).1 (descend cmp key path tree).2 ↔
      Holds store path tree := by
  fun_induction descend cmp key path tree with
  | case1 | case2 => rfl
  | case3 _ _ _ _ _ _ _ _ ih | case4 _ _ _ _ _ _ _ _ ih => exact ih.trans holds_cons

theorem searchLoop_eq (path : List (Frame α κ)) (stored : Stored store tree) {steps : Nat}
    (enough : tree.entries.length < steps) :
    searchLoop cmp store key steps tree.ptr (slots path []) (path.head?.map Frame.addr) =
      some ((descend cmp key path tree).2.ptr, slots (descend cmp key path tree).1 [],
        (descend cmp key path tree).1.head?.map Frame.addr) := by
  induction steps generalizing path tree with
  | zero => cases enough
  | succ steps ih =>
    cases tree with
    | nil => rfl
    | node addr nodeKey h left right =>
      rcases stored with ⟨loads, storedLeft, storedRight⟩
      simp only [entries, List.length_append, List.length_cons] at enough
      simp only [ptr_node, searchLoop, loads, Option.bind_eq_bind, Option.bind_some, descend]
      split_ifs with same above
      · rfl
      · have deeper : searchLoop cmp store key steps right.ptr
            (slots (⟨addr, nodeKey, h, true, left⟩ :: path) []) (some addr) = _ :=
          ih _ storedRight (by omega)
        rw [decide_eq_true above]
        exact deeper
      · have deeper : searchLoop cmp store key steps left.ptr
            (slots (⟨addr, nodeKey, h, false, right⟩ :: path) []) (some addr) = _ :=
          ih _ storedLeft (by omega)
        rw [decide_eq_false above]
        exact deeper

theorem findLoop_eq (steps : Nat) (n : Option α) (nodes : List (Slot α)) (nodeParent : Option α) :
    findLoop cmp store key steps n =
      (searchLoop cmp store key steps n nodes nodeParent).map Prod.fst := by
  induction steps generalizing n nodes nodeParent with
  | zero => rfl
  | succ steps ih =>
    cases n with
    | none => rfl
    | some n =>
      cases loads : store.load n with
      | none => simp [findLoop, searchLoop, loads]
      | some node =>
        simp only [findLoop, searchLoop, loads, Option.bind_eq_bind, Option.bind_some]
        split_ifs
        · rfl
        · exact ih _ _ _

end Descend

variable [DecidableEq α] {cmp : κ → κ → Int} {store : Store α κ} {tree : Tree α κ}
  (holds : Holds store [] tree)
include holds

theorem searchLoop_root (key : κ) : searchLoop cmp store key (fuel store) store.root [.root] none =
      some ((descend cmp key [] tree).2.ptr, slots (descend cmp key [] tree).1 [],
        (descend cmp key [] tree).1.head?.map Frame.addr) := by
  rw [show store.root = tree.ptr from holds.storedPath]
  exact searchLoop_eq [] holds.stored holds.length_lt_fuel

theorem tfind_eq (key : κ) : tfind cmp store key = some (descend cmp key [] tree).2.ptr := by
  have root : store.root = tree.ptr := holds.storedPath
  unfold tfind
  split_ifs with empty
  · rw [root] at empty
    cases tree with
    | nil => rfl
    | node => cases empty
  · rw [root]
    rw [findLoop_eq _ _ [.root] none, ← root, searchLoop_root holds]
    rfl

theorem tsearch_failed {key : κ} (absent : (descend cmp key [] tree).2 = .nil) :
    tsearch cmp store key none = some (store, none) := by
  simp [tsearch, searchLoop_root holds, absent]

theorem tsearch_inserted {key : κ} (pos : tree.Positive)
    (absent : (descend cmp key [] tree).2 = .nil) {insert : α}
    (fresh : store.load insert = none) :
    ∃ next, tsearch cmp store key (some insert) = some (next, some insert) ∧
      Holds next [] (tree.insert cmp insert key).1 := by
  have place : Holds store (descend cmp key [] tree).1 (descend cmp key [] tree).2 :=
    descend_holds.mpr holds
  have pathPos := (descend_positive cmp key pos (List.forall_mem_nil _)).2
  have inserts := climb_insert cmp key [] tree insert
  have loop : searchLoop cmp store key (fuel store) store.root [.root] none = _ :=
    searchLoop_root holds key
  rw [absent] at place inserts loop
  generalize (descend cmp key [] tree).1 = path at *
  have notInPath : insert ∉ pathAddrs path := fun mem =>
    place.storedPath.load_ne_none mem fresh
  have stored : Stored (store.put insert ⟨key, none, none, 1⟩) (.node insert key 1 .nil .nil) :=
    ⟨by rw [Store.load_put_self, ptr_nil], trivial, trivial⟩
  rcases place.replace stored rfl
      (fun addr mem => store.load_put_of_ne _ fun same => notInPath (same ▸ mem))
      (by simpa using ⟨notInPath, place.nodup⟩) with
    ⟨written, writes, newHolds, _⟩
  rcases balanceUp_tail newHolds ⟨by decide, trivial, trivial⟩ pathPos with
    ⟨next, loops, finalHolds⟩
  refine ⟨next, ?_, ?_⟩
  · rw [slots_eq_cons] at loop
    have written' : (store.put insert ⟨key, none, none, 1⟩).write (slotOf path) (some insert) =
        some written := writes
    simp [tsearch, loop, written', loops]
  have inserted : (tree.insert cmp insert key).1 =
      (climb path (.node insert key 1 .nil .nil, true)).1 :=
    congrArg Prod.fst inserts.symm
  rwa [inserted]

end Mlibc.Search
