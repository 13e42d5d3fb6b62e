import Mlibc.SearchStore
import Mlibc.SearchTreeOrder

/-! # Trees in memory -/

namespace Mlibc.Search

open List Tree

variable {α κ : Type}

def Tree.ptr : Tree α κ → Option α
  | .nil => none
  | .node addr _ _ _ _ => some addr

@[simp]
theorem ptr_nil : (nil : Tree α κ).ptr = none := rfl

@[simp]
theorem ptr_node (addr : α) (key : κ) (h : Int) (left right : Tree α κ) :
    (node addr key h left right).ptr = some addr := rfl

def Tree.addrs (tree : Tree α κ) : List α := tree.entries.map Prod.fst

@[simp, grind =]
theorem addrs_nil : (nil : Tree α κ).addrs = [] := rfl

@[simp, grind =]
theorem addrs_node (addr : α) (key : κ) (h : Int) (left right : Tree α κ) :
    (node addr key h left right).addrs = left.addrs ++ addr :: right.addrs := by
  simp [addrs, entries]

def Frame.node (frame : Frame α κ) (child : Option α) : Node α κ :=
  if frame.right then ⟨frame.key, frame.sibling.ptr, child, frame.h⟩
  else ⟨frame.key, child, frame.sibling.ptr, frame.h⟩

def pathAddrs (path : List (Frame α κ)) : List α :=
  path.flatMap fun frame => frame.addr :: frame.sibling.addrs

def slotOf : List (Frame α κ) → Slot α
  | [] => .root
  | frame :: _ => .child frame.addr frame.right

def plug (path : List (Frame α κ)) (tree : Tree α κ) : Tree α κ :=
  path.foldl (fun subtree frame => frame.fill subtree) tree

section

variable (frame : Frame α κ) (tree : Tree α κ)

include frame tree

@[simp]
theorem Frame.ptr_fill : (frame.fill tree).ptr = some frame.addr := by
  unfold Frame.fill
  split_ifs <;> rfl

theorem Frame.fill_ne_nil : frame.fill tree ≠ .nil := by
  intro empty
  have ptr := frame.ptr_fill tree
  rw [empty] at ptr
  cases ptr

theorem Frame.addrs_fill :
    (frame.fill tree).addrs.Perm (tree.addrs ++ frame.addr :: frame.sibling.addrs) := by
  unfold Frame.fill
  split_ifs
  · rw [addrs_node]
    exact (perm_append_comm.trans (by simp)).trans perm_middle.symm
  · rw [addrs_node]

end

variable [DecidableEq α]

namespace Store

section

variable (store : Store α κ)

include store

theorem load_put (addr other : α) (node : Node α κ) :
    (store.put addr node).load other = if other = addr then some node else store.load other := by
  split_ifs with same
  · subst same
    exact Finmap.lookup_insert _
  · exact Finmap.lookup_insert_of_ne _ same

theorem load_free_of_ne {addr other : α} (apart : other ≠ addr) :
    (store.free addr).load other = store.load other :=
  Finmap.lookup_erase_ne apart

theorem load_put_self (addr : α) (node : Node α κ) :
    (store.put addr node).load addr = some node := by
  rw [load_put, if_pos rfl]

theorem load_put_of_ne {addr other : α} (node : Node α κ)
    (apart : other ≠ addr) : (store.put addr node).load other = store.load other := by
  rw [load_put, if_neg apart]

end

theorem setA_of_load {store : Store α κ} {addr : α} {node : Node α κ}
    (loads : store.load addr = some node) (side : Bool) (child : Option α) :
    store.setA addr side child = some (store.put addr (node.setA side child)) := by
  simp [setA, loads]

end Store

/-! ### Stored trees and paths -/

def Stored (store : Store α κ) : Tree α κ → Prop
  | .nil => True
  | .node addr key h left right =>
    store.load addr = some ⟨key, left.ptr, right.ptr, h⟩ ∧ Stored store left ∧ Stored store right

def StoredPath (store : Store α κ) : List (Frame α κ) → Option α → Prop
  | [], child => store.root = child
  | frame :: path, child =>
    store.load frame.addr = some (frame.node child) ∧ Stored store frame.sibling ∧
      StoredPath store path (some frame.addr)

variable {tree : Tree α κ}

theorem Stored.congr {store other : Store α κ} (stored : Stored store tree)
    (same : ∀ addr ∈ tree.addrs, other.load addr = store.load addr) : Stored other tree := by
  induction tree with
  | nil => exact trivial
  | node addr key h left right ihLeft ihRight =>
    simp only [addrs_node, mem_append, mem_cons] at same
    rcases stored with ⟨loads, left, right⟩
    exact ⟨(same addr (.inr (.inl rfl))).trans loads,
      ihLeft left fun addr mem => same addr (.inl mem),
      ihRight right fun addr mem => same addr (.inr (.inr mem))⟩

variable {path : List (Frame α κ)} {child : Option α}

theorem StoredPath.congr {store other : Store α κ} (stored : StoredPath store path child)
    (same : ∀ addr ∈ pathAddrs path, other.load addr = store.load addr)
    (root : other.root = store.root) : StoredPath other path child := by
  induction path generalizing child with
  | nil => exact root.trans stored
  | cons frame path ih =>
    simp only [pathAddrs, flatMap_cons, mem_append, mem_cons] at same
    rcases stored with ⟨loads, sib, path⟩
    exact ⟨(same frame.addr (.inl (.inl rfl))).trans loads,
      sib.congr fun addr mem => same addr (.inl (.inr mem)),
      ih path fun addr mem => same addr (.inr mem)⟩

/-- The tree is stored at the end of the path, and no address occurs twice. -/
structure Holds (store : Store α κ) (path : List (Frame α κ)) (tree : Tree α κ) : Prop where
  stored : Stored store tree
  storedPath : StoredPath store path tree.ptr
  nodup : (tree.addrs ++ pathAddrs path).Nodup

variable {store : Store α κ}

theorem stored_fill {frame : Frame α κ} :
    Stored store (frame.fill tree) ↔ store.load frame.addr = some (frame.node tree.ptr) ∧
      Stored store frame.sibling ∧ Stored store tree := by
  unfold Frame.fill Frame.node
  split_ifs
  · exact .rfl
  · simp only [Stored]
    tauto

theorem holds_cons {frame : Frame α κ} : Holds store (frame :: path) tree ↔ Holds store path
    (frame.fill tree) := by
  have perm : (tree.addrs ++ pathAddrs (frame :: path)).Perm
      ((frame.fill tree).addrs ++ pathAddrs path) := by
    rw [pathAddrs, flatMap_cons, ← append_assoc]
    exact (frame.addrs_fill tree).symm.append_right _
  constructor
  · rintro ⟨stored, ⟨loads, sib, path⟩, nodup⟩
    exact ⟨stored_fill.mpr ⟨loads, sib, stored⟩, by rwa [Frame.ptr_fill], perm.nodup_iff.mp nodup⟩
  rintro ⟨stored, path, nodup⟩
  rcases stored_fill.mp stored with ⟨loads, sib, stored⟩
  rw [Frame.ptr_fill] at path
  exact ⟨stored, ⟨loads, sib, path⟩, perm.nodup_iff.mpr nodup⟩

theorem holds_append {inner outer : List (Frame α κ)} :
    Holds store (inner ++ outer) tree ↔ Holds store outer (plug inner tree) := by
  induction inner generalizing tree with
  | nil => rfl
  | cons frame inner ih => rw [cons_append, holds_cons, ih]; rfl

theorem Stored.load_ne_none (stored : Stored store tree) {addr : α}
    (mem : addr ∈ tree.addrs) : store.load addr ≠ none := by
  induction tree with
  | nil => cases mem
  | node other key h left right ihLeft ihRight =>
    rcases stored with ⟨loads, storedLeft, storedRight⟩
    simp only [addrs_node, mem_append, mem_cons] at mem
    rcases mem with inLeft | rfl | inRight
    · exact ihLeft storedLeft inLeft
    · simp [loads]
    · exact ihRight storedRight inRight

theorem StoredPath.load_ne_none (stored : StoredPath store path child) {addr : α}
    (mem : addr ∈ pathAddrs path) : store.load addr ≠ none := by
  induction path generalizing child with
  | nil => cases mem
  | cons frame path ih =>
    rcases stored with ⟨loads, sib, storedPath⟩
    simp only [pathAddrs, flatMap_cons, mem_append, mem_cons] at mem
    rcases mem with (rfl | inSibling) | inPath
    · simp [loads]
    · exact sib.load_ne_none inSibling
    · exact ih storedPath inPath

theorem Holds.length_lt_fuel
    (holds : Holds store path tree) : tree.entries.length < fuel store := by
  have alloc : tree.addrs.toFinset ⊆ store.nodes.keys := by
    intro addr mem
    by_contra notAllocated
    exact holds.stored.load_ne_none (mem_toFinset.mp mem) (Finmap.lookup_eq_none.mpr notAllocated)
  have nodup := (nodup_append.mp holds.nodup).1
  have card := Finset.card_le_card alloc
  rw [toFinset_card_of_nodup nodup, addrs, length_map] at card
  exact Nat.lt_succ_of_le card

theorem Holds.free (holds : Holds store path tree) {addr : α}
    (notMember : addr ∉ tree.addrs ++ pathAddrs path) :
    Holds (store.free addr) path tree := by
  have same : ∀ other ∈ tree.addrs ++ pathAddrs path,
      (store.free addr).load other = store.load other := by
    intro other mem
    exact store.load_free_of_ne fun same => notMember (same ▸ mem)
  exact ⟨holds.stored.congr fun other mem => same other (mem_append_left _ mem),
    holds.storedPath.congr (fun other mem => same other (mem_append_right _ mem)) rfl,
    holds.nodup⟩

/-! ### Slots -/

theorem StoredPath.read
    (stored : StoredPath store path child) : store.read (slotOf path) = some child := by
  cases path with
  | nil => exact congrArg some stored
  | cons frame path =>
    simp only [slotOf, Store.read, stored.1]
    cases side : frame.right <;> simp [Frame.node, Node.a, side]

theorem StoredPath.write (stored : StoredPath store path child) (nodup : (pathAddrs path).Nodup)
    (newChild : Option α) :
    ∃ written, store.write (slotOf path) newChild = some written ∧
      StoredPath written path newChild ∧
      ∀ addr ∉ pathAddrs path, written.load addr = store.load addr := by
  cases path with
  | nil => exact ⟨{ store with root := newChild }, rfl, rfl, fun _ _ => rfl⟩
  | cons frame path =>
    rcases stored with ⟨loads, sib, stored⟩
    have node : (frame.node child).setA frame.right newChild = frame.node newChild := by
      cases side : frame.right <;> simp [Frame.node, Node.setA, side]
    have written := Store.setA_of_load loads frame.right newChild
    rw [node] at written
    simp only [pathAddrs, flatMap_cons, cons_append, nodup_cons, mem_append, not_or] at nodup
    refine ⟨_, written, ⟨?_, sib.congr ?_, stored.congr ?_ rfl⟩, ?_⟩
    · exact store.load_put_self _ _
    · intro addr mem
      exact store.load_put_of_ne _ fun same => nodup.1.1 (same ▸ mem)
    · intro addr mem
      exact store.load_put_of_ne _ fun same => nodup.1.2 (same ▸ mem)
    · intro addr notMember
      simp only [pathAddrs, flatMap_cons, mem_append, mem_cons, not_or] at notMember
      exact store.load_put_of_ne _ notMember.1.1

theorem Holds.replace {store changed : Store α κ} {tree newTree : Tree α κ}
    (holds : Holds store path tree)
    (stored : Stored changed newTree) (root : changed.root = store.root)
    (same : ∀ addr ∈ pathAddrs path, changed.load addr = store.load addr)
    (nodup : (newTree.addrs ++ pathAddrs path).Nodup) :
    ∃ written, changed.write (slotOf path) newTree.ptr = some written ∧ Holds written path newTree ∧
      ∀ addr ∉ pathAddrs path, written.load addr = changed.load addr := by
  have parts := nodup_append.mp nodup
  rcases (holds.storedPath.congr same root).write parts.2.1 newTree.ptr with
    ⟨written, writes, path, others⟩
  refine ⟨written, writes, ⟨stored.congr ?_, path, nodup⟩, others⟩
  intro addr mem
  exact others addr fun inPath => parts.2.2 addr mem addr inPath rfl

end Mlibc.Search
