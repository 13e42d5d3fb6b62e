import Mathlib.Data.Finmap
import Mlibc.TransitionSystem

/-!
# Search trees in memory

`tsearch`, `tfind` and `tdelete` of `options/posix/generic/search.cpp`, with the nodes in a
memory.
-/

namespace Mlibc.Search

/-- `struct node`. -/
structure Node (α κ : Type) where
  key : κ
  left : Option α
  right : Option α
  h : Int
  deriving DecidableEq

/-- A pointer to a child pointer: to the root pointer, or to `a[side]` of a node. -/
inductive Slot (α : Type) where
  | root
  | child (parent : α) (side : Bool)
  deriving DecidableEq

structure Store (α κ : Type) where
  root : Option α
  nodes : Finmap fun _ : α => Node α κ

variable {α κ : Type}

namespace Node

def a (node : Node α κ) (side : Bool) : Option α := if side then node.right else node.left

def setA (node : Node α κ) (side : Bool) (child : Option α) : Node α κ :=
  if side then { node with right := child } else { node with left := child }

end Node

section Store

variable [DecidableEq α]

namespace Store

variable (store : Store α κ)

def load (addr : α) : Option (Node α κ) := store.nodes.lookup addr

def put (addr : α) (node : Node α κ) : Store α κ :=
  { store with nodes := store.nodes.insert addr node }

def free (addr : α) : Store α κ := { store with nodes := store.nodes.erase addr }

def setA (addr : α) (side : Bool) (child : Option α) : Option (Store α κ) := do
  let node ← store.load addr
  return store.put addr (node.setA side child)

def setH (addr : α) (h : Int) : Option (Store α κ) := do
  let node ← store.load addr
  return store.put addr { node with h := h }

def read : Slot α → Option (Option α)
  | .root => some store.root
  | .child parent side => do
      let node ← store.load parent
      return node.a side

def write (slot : Slot α) (child : Option α) : Option (Store α κ) :=
  match slot with
  | .root => some { store with root := child }
  | .child parent side => store.setA parent side child

end Store

def height (store : Store α κ) : Option α → Option Int
  | none => some 0
  | some addr => do
      let node ← store.load addr
      return node.h

def doubleRotation (store : Store α κ) (side : Bool) (node x y : α) (heightY : Int) :
    Option (Store α κ) := do
  let store ← store.setA node side ((← store.load y).a !side)
  let store ← store.setA x (!side) ((← store.load y).a side)
  let store ← store.setA y (!side) (some node)
  let store ← store.setA y side (some x)
  let store ← store.setH node heightY
  let store ← store.setH x heightY
  store.setH y (heightY + 1)

def singleRotation (store : Store α κ) (side : Bool) (node x : α) (y : Option α)
    (heightY : Int) : Option (Store α κ) := do
  let store ← store.setA node side y
  let store ← store.setA x (!side) (some node)
  let store ← store.setH node (heightY + 1)
  store.setH x (heightY + 2)

/-- The end of a rotation: the slot gets the node `y`, whose height is compared with the
old one. -/
def finishRotation (store : Store α κ) (nodep : Slot α) (y : α) (heightNode : Int) :
    Option (Store α κ × Int) := do
  let store ← store.write nodep (some y)
  return (store, (← store.load y).h - heightNode)

def rotate (store : Store α κ) (nodep : Slot α) (side : Bool) : Option (Store α κ × Int) := do
  let addr ← ← store.read nodep
  let node ← store.load addr
  let x ← node.a side
  let nodeX ← store.load x
  let y := nodeX.a !side
  let z := nodeX.a side
  let heightY ← height store y
  let heightZ ← height store z
  if heightY > heightZ then
    let y ← y
    finishRotation (← doubleRotation store side addr x y heightY) nodep y node.h
  else
    finishRotation (← singleRotation store side addr x y heightY) nodep x node.h

def balanceTree (store : Store α κ) (nodep : Slot α) : Option (Store α κ × Int) := do
  let addr ← ← store.read nodep
  let node ← store.load addr
  let heightA ← height store node.left
  let heightB ← height store node.right
  if (heightA - heightB).natAbs < 2 then
    let h := if heightA < heightB then heightB + 1 else heightA + 1
    let store ← store.setH addr h
    return (store, h - node.h)
  else rotate store nodep (decide (heightA < heightB))

def balanceUp (store : Store α κ) : List (Slot α) → Option (Store α κ)
  | [] => some store
  | nodep :: nodes => do
      let (store, change) ← balanceTree store nodep
      if change = 0 then return store else balanceUp store nodes

section Calls

variable (cmp : κ → κ → Int) (store : Store α κ)

/-- The search loop of `tsearch` and `tdelete`, with the stack of slots and the parent
of `n`. -/
def searchLoop (key : κ) :
    Nat → Option α → List (Slot α) → Option α → Option (Option α × List (Slot α) × Option α)
  | 0, _, _, _ => none
  | _ + 1, none, nodes, nodeParent => some (none, nodes, nodeParent)
  | fuel + 1, some n, nodes, nodeParent => do
      let node ← store.load n
      let c := cmp key node.key
      if c = 0 then return (some n, nodes, nodeParent)
      else
        searchLoop key fuel (node.a (decide (c > 0))) (.child n (decide (c > 0)) :: nodes) (some n)

def findLoop (key : κ) : Nat → Option α → Option (Option α)
  | 0, _ => none
  | _ + 1, none => some none
  | fuel + 1, some n => do
      let node ← store.load n
      let c := cmp key node.key
      if c = 0 then return some n else findLoop key fuel (node.a (decide (c > 0)))

def predecessorLoop : Nat → α → α → List (Slot α) → Option (α × α × List (Slot α))
  | 0, _, _, _ => none
  | fuel + 1, predParent, predecessor, nodes => do
      match (← store.load predecessor).right with
      | none => return (predParent, predecessor, nodes)
      | some next =>
        predecessorLoop fuel predecessor next (.child predecessor true :: nodes)

def fuel : Nat := store.nodes.keys.card + 1

def tsearch (key : κ) (alloc : Option α) : Option (Store α κ × Option α) := do
  let (n, nodes, _) ← searchLoop cmp store key (fuel store) store.root [.root] none
  match n, alloc, nodes with
  | some n, _, _ => return (store, some n)
  | none, none, _ => return (store, none)
  | none, some insert, top :: nodes =>
    let store := store.put insert ⟨key, none, none, 1⟩
    let store ← store.write top (some insert)
    let store ← balanceUp store nodes
    return (store, some insert)
  | none, some _, [] => none

def tfind (key : κ) : Option (Option α) :=
  if store.root = none then some none else findLoop cmp store key (fuel store) store.root

def replaceByPredecessor (n left : α) (nodep : Slot α) (nodes : List (Slot α)) :
    Option (Store α κ × List (Slot α)) := do
  let (predParent, predecessor, nodes) ← predecessorLoop store (fuel store) n left nodes
  if predParent = n then
    let store ← store.setA predecessor true (← store.load n).right
    return (← store.write nodep (some predecessor), nodes)
  else
    let store ← store.setA predParent true (← store.load predecessor).left
    let store ← store.setA predecessor false (← store.load n).left
    let store ← store.setA predecessor true (← store.load n).right
    return (← store.write nodep (some predecessor), nodes.tail)

def removeNode (n : α) (nodes : List (Slot α)) : Option (Store α κ × List (Slot α)) := do
  let nodep ← nodes.head?
  let node ← store.load n
  match node.left, node.right with
  | none, none => return (← store.write nodep none, nodes.tail)
  | none, some child => return (← store.write nodep (some child), nodes)
  | some child, none => return (← store.write nodep (some child), nodes)
  | some left, some _ => replaceByPredecessor store n left nodep nodes

def tdelete (key : κ) : Option (Store α κ × Option α) := do
  if store.root = none then return (store, none)
  let (n, nodes, nodeParent) ←
    searchLoop cmp store key (fuel store) store.root [.root] none
  match n with
  | none => return (store, none)
  | some n =>
    let (store, nodes) ← removeNode store n nodes
    let store ← balanceUp (store.free n) nodes
    return (store, some (nodeParent.getD n))

end Calls

end Store

end Mlibc.Search
