import Mlibc.SearchInsertRefinement

/-! # Deleting in memory -/

namespace Mlibc.Search

open List Tree Store Option

variable {α κ : Type}

def lastPath (addr : α) (key : κ) (h : Int) (left : Tree α κ) : Tree α κ → List (Frame α κ)
  | .nil => []
  | .node inner innerKey innerH innerLeft innerRight =>
    lastPath inner innerKey innerH innerLeft innerRight ++ [⟨addr, key, h, true, left⟩]

def lastLeft (left : Tree α κ) : Tree α κ → Tree α κ
  | .nil => left
  | .node _ _ _ innerLeft innerRight => lastLeft innerLeft innerRight

section Last

variable (addr : α) (key : κ) (h : Int) (left right : Tree α κ)

theorem plug_append (inner outer : List (Frame α κ)) (tree : Tree α κ) :
    plug (inner ++ outer) tree = plug outer (plug inner tree) :=
  foldl_append

theorem climb_append (inner outer : List (Frame α κ)) (subtree : Tree α κ × Bool) :
    climb (inner ++ outer) subtree = climb outer (climb inner subtree) :=
  foldl_append

theorem plug_lastPath :
    plug (lastPath addr key h left right)
      (.node (last addr key h right).1 (last addr key h right).2.1
        (last addr key h right).2.2 (lastLeft left right) .nil) =
      .node addr key h left right := by
  induction right generalizing addr key h left with
  | nil => rfl
  | node inner innerKey innerH innerLeft innerRight _ ih =>
    rw [lastPath, plug_append]
    exact congrArg (Frame.fill ⟨addr, key, h, true, left⟩) (ih inner innerKey innerH innerLeft)

theorem removeLast_eq_climb :
    (node addr key h left right).removeLast =
      climb (lastPath addr key h left right) (lastLeft left right, true) := by
  induction right generalizing addr key h left with
  | nil => rfl
  | node inner innerKey innerH innerLeft innerRight _ ih =>
    rw [lastPath, climb_append, lastLeft, ← ih]
    rfl

theorem addrs_lastPath :
    (node addr key h left right).addrs =
      (plug (lastPath addr key h left right) (lastLeft left right)).addrs ++
        [(last addr key h right).1] := by
  induction right generalizing addr key h left with
  | nil => simp [lastPath, lastLeft, plug, last]
  | node inner innerKey innerH innerLeft innerRight _ ih =>
    rw [lastPath, lastLeft, last, addrs_node, ih]
    simp [plug, Frame.fill]

variable {addr key h left right}

theorem lastPath_positive (pos : (node addr key h left right).Positive) :
    (lastLeft left right).Positive ∧ ∀ frame ∈ lastPath addr key h left right, frame.Positive := by
  induction right generalizing addr key h left with
  | nil => exact ⟨pos.2.1, forall_mem_nil _⟩
  | node inner innerKey innerH innerLeft innerRight _ ih =>
    rcases ih pos.2.2 with ⟨lastPos, pathPos⟩
    refine ⟨lastPos, ?_⟩
    intro frame mem
    rcases mem_append.mp mem with inPath | atEnd
    · exact pathPos frame inPath
    · cases mem_singleton.mp atEnd
      exact ⟨pos.1, pos.2.1⟩

theorem lastPath_right {frame : Frame α κ} (mem : frame ∈ lastPath addr key h left right) :
    frame.right = true := by
  induction right generalizing addr key h left with
  | nil => cases mem
  | node inner innerKey innerH innerLeft innerRight _ ih =>
    rcases mem_append.mp mem with inPath | atEnd
    · exact ih inPath
    · cases mem_singleton.mp atEnd
      rfl

variable [DecidableEq α] {store : Store α κ}

theorem predecessorLoop_eq (stored : Stored store (.node addr key h left right)) {steps : Nat}
    (enough : right.entries.length < steps) (parent : α) (nodes : List (Slot α)) :
    predecessorLoop store steps parent addr nodes =
      some (((lastPath addr key h left right).head?.map Frame.addr).getD parent,
        (last addr key h right).1,
        (lastPath addr key h left right).map (fun frame => .child frame.addr frame.right) ++
          nodes) := by
  induction steps generalizing addr key h left right parent nodes with
  | zero => cases enough
  | succ steps ih =>
    cases right with
    | nil => simp [predecessorLoop, stored.1, lastPath, last]
    | node inner innerKey innerH innerLeft innerRight =>
      rcases stored with ⟨loads, _, storedRight⟩
      simp only [entries, length_append, length_cons] at enough
      have deeper := ih storedRight (by omega) addr (.child addr true :: nodes)
      simp only [predecessorLoop, loads, ptr_node, bind_eq_bind, bind_some, deeper, lastPath, last]
      cases lastPath inner innerKey innerH innerLeft innerRight <;> simp

end Last

variable [DecidableEq α] {store : Store α κ} {path : List (Frame α κ)} {n leftAddr : α}
  {key leftKey : κ} {h leftH : Int} {outer inner left right : Tree α κ}

section Remove

theorem Holds.replace_free {changed : Store α κ}
    (holds : Holds store path (.node n key h left right)) {newTree : Tree α κ}
    (stored : Stored changed newTree) (root : changed.root = store.root)
    (same : ∀ addr ∈ pathAddrs path, changed.load addr = store.load addr)
    (nodup : (newTree.addrs ++ pathAddrs path).Nodup) (removed : n ∉ newTree.addrs) :
    ∃ written, changed.write (slotOf path) newTree.ptr = some written ∧
      Holds (written.free n) path newTree := by
  rcases holds.replace stored root same nodup with ⟨written, writes, newHolds, _⟩
  refine ⟨written, writes, newHolds.free ?_⟩
  have old := holds.nodup
  grind

/-- The node is removed and the loop over the stack ends with the joined subtrees in its
place. -/
def Removes (store : Store α κ) (path : List (Frame α κ)) (n : α) (left right : Tree α κ) :
    Prop :=
  ∃ changed nodes next, removeNode store n (slots path []) = some (changed, nodes) ∧
    balanceUp (changed.free n) nodes = some next ∧
    Holds next [] (climb path (Tree.join left right)).1

variable (holds : Holds store path (.node n key h left right))
  (pos : (Tree.node n key h left right).Positive)
  (pathPos : ∀ frame ∈ path, frame.Positive)
include holds pathPos

theorem removes_leaf (noLeft : left = .nil) (noRight : right = .nil) :
    Removes store path n left right := by
  subst noLeft noRight
  have nodup := holds.nodup
  have stored : Stored store (.nil : Tree α κ) := trivial
  rcases holds.replace_free stored rfl (fun _ _ => rfl) (by grind) (by grind) with
    ⟨written, writes, newHolds⟩
  rw [ptr_nil] at writes
  rcases balanceUp_tail newHolds trivial pathPos with ⟨next, loops, finalHolds⟩
  refine ⟨written, (slots path []).tail, next, ?_, loops, finalHolds⟩
  rw [slots_eq_cons]
  simp [removeNode, holds.stored.1, writes]

include pos

theorem removes_only {child : Tree α κ} (ne : child ≠ .nil)
    (only : left = .nil ∧ right = child ∨ left = child ∧ right = .nil) :
    Removes store path n left right := by
  have nodup := holds.nodup
  have isChild : Stored store child ∧ child.Positive := by
    rcases only with ⟨_, rfl⟩ | ⟨rfl, _⟩
    · exact ⟨holds.stored.2.2, pos.2.2⟩
    · exact ⟨holds.stored.2.1, pos.2.1⟩
  rcases holds.replace_free isChild.1 rfl (fun _ _ => rfl) (by grind) (by grind) with
    ⟨written, writes, newHolds⟩
  rcases balanceUp_all newHolds ne isChild.2 pathPos with ⟨next, loops, finalHolds⟩
  cases child with
  | nil => exact absurd rfl ne
  | node =>
    rw [ptr_node] at writes
    rcases only with ⟨rfl, rfl⟩ | ⟨rfl, rfl⟩
    all_goals
      refine ⟨written, slots path [], next, ?_, loops, finalHolds⟩
      rw [slots_eq_cons]
      simp [removeNode, holds.stored.1, writes]

omit pos pathPos in
theorem removeNode_two {leftAddr rightAddr : α} (leftPtr : left.ptr = some leftAddr)
    (rightPtr : right.ptr = some rightAddr) :
    removeNode store n (slots path []) =
      replaceByPredecessor store n leftAddr (slotOf path) (slots path []) := by
  rw [slots_eq_cons]
  simp [removeNode, holds.stored.1, leftPtr, rightPtr]

theorem removes_direct {leftAddr rightAddr : α} {leftKey : κ} {leftH : Int} {outer : Tree α κ}
    (direct : left = .node leftAddr leftKey leftH outer .nil)
    (rightPtr : right.ptr = some rightAddr)  :
    Removes store path n left right := by
  subst direct
  have nodup := holds.nodup
  have removes := removeNode_two holds (ptr_node ..) rightPtr
  rcases holds.stored with ⟨loads, ⟨loadsLeft, storedOuter, _⟩, storedRight⟩
  have enough : (nil : Tree α κ).entries.length < fuel store := Nat.succ_pos _
  have descends := predecessorLoop_eq holds.stored.2.1 enough n (slots path [])
  have stored : Stored (store.put leftAddr ⟨leftKey, outer.ptr, right.ptr, leftH⟩)
      (.node leftAddr leftKey leftH outer right) := by
    refine ⟨?_, storedOuter.put ?_ _, storedRight.put ?_ _⟩
    · rw [load_put_self]
    · grind
    · grind
  rcases holds.replace_free stored rfl
      (fun addr mem => store.load_put_of_ne _ (by grind)) (by grind) (by grind) with
    ⟨written, writes, newHolds⟩
  rw [ptr_node] at writes
  rcases balanceUp_all newHolds (by simp) ⟨pos.2.1.1, pos.2.1.2.1, pos.2.2⟩
      pathPos with ⟨next, loops, finalHolds⟩
  refine ⟨written, slots path [], next, ?_, loops, ?_⟩
  · have changes := setA_of_load loadsLeft true right.ptr
    rw [removes]
    simp only [replaceByPredecessor, descends, lastPath, last, loads, changes,
      Option.bind_eq_bind, Option.bind_some, head?_nil, Option.map_none,
      getD_none, if_true, map_nil, nil_append]
    simp only [Node.setA, if_true, writes, Option.bind_some, Option.pure_def]
  · cases right with
    | nil => cases rightPtr
    | node => exact finalHolds

end Remove

section Splice

variable
  (holds : Holds store path (.node n key h (.node leftAddr leftKey leftH outer inner) right))
  {frame : Frame α κ} {rest : List (Frame α κ)}
  (descent : lastPath leftAddr leftKey leftH outer inner = frame :: rest)
include holds descent

theorem predecessor_holds :
    Holds store (frame :: rest ++ ⟨n, key, h, false, right⟩ :: path)
      (.node (last leftAddr leftKey leftH inner).1
        (last leftAddr leftKey leftH inner).2.1
        (last leftAddr leftKey leftH inner).2.2 (lastLeft outer inner) .nil) := by
  have whole := plug_lastPath leftAddr leftKey leftH outer inner
  rw [descent] at whole
  rw [holds_append, whole, holds_cons]
  exact holds

theorem unlink_holds :
    ∃ unlinked, store.setA frame.addr true (lastLeft outer inner).ptr = some unlinked ∧
      Holds unlinked path (.node n key h (plug (frame :: rest) (lastLeft outer inner)) right) ∧
      unlinked.load (last leftAddr leftKey leftH inner).1 =
        store.load (last leftAddr leftKey leftH inner).1 := by
  have isRight : frame.right = true := lastPath_right (descent ▸ mem_cons_self)
  have place := predecessor_holds holds descent
  have nodup := place.nodup
  rcases place.replace place.stored.2.1 rfl (fun _ _ => rfl) (by grind) with
    ⟨unlinked, writes, newHolds, others⟩
  refine ⟨unlinked, ?_, ?_, ?_⟩
  · rw [← isRight]
    exact writes
  · exact holds_cons.mp (holds_append.mp newHolds)
  · grind

theorem replaceByPredecessor_holds :
    ∃ changed, replaceByPredecessor store n leftAddr (slotOf path) (slots path []) =
        some (changed, rest.map (fun frame => .child frame.addr frame.right) ++ slots path []) ∧
      Holds (changed.free n) path
        (.node (last leftAddr leftKey leftH inner).1
          (last leftAddr leftKey leftH inner).2.1
          (last leftAddr leftKey leftH inner).2.2
          (plug (frame :: rest) (lastLeft outer inner)) right) := by
  have enough : inner.entries.length < fuel store := by
    have size := holds.length_lt_fuel
    simp only [entries, length_append, length_cons] at size
    omega
  have descends := predecessorLoop_eq holds.stored.2.1 enough n (slots path [])
  have addrs := addrs_lastPath leftAddr leftKey leftH outer inner
  rw [descent] at addrs descends
  have place := predecessor_holds holds descent
  have lastLoads := place.stored.1
  have apart : frame.addr ≠ n := by
    have nodup := (nodup_append.mp place.nodup).2.1
    simp only [pathAddrs, cons_append, flatMap_cons, flatMap_append] at nodup
    grind
  rcases unlink_holds holds descent with ⟨unlinked, unlinks, newHolds, sameLast⟩
  have nodup := holds.nodup
  rw [addrs_node, addrs] at nodup
  generalize last leftAddr leftKey leftH inner = predecessor at *
  rcases newHolds.stored with ⟨loads, storedSpine, storedRight⟩
  have differentLast : n ≠ predecessor.1 := by grind
  generalize plug (frame :: rest) (lastLeft outer inner) = spine at *
  set linked := unlinked.put predecessor.1
    ⟨predecessor.2.1, spine.ptr, none, predecessor.2.2⟩ with linkedEq
  have linksLeft : unlinked.setA predecessor.1 false spine.ptr = some linked :=
    setA_of_load (sameLast.trans lastLoads) false spine.ptr
  have linkedLoads : linked.load n = unlinked.load n := unlinked.load_put_of_ne _ differentLast
  have linksRight : linked.setA predecessor.1 true right.ptr =
      some (linked.put predecessor.1 ⟨predecessor.2.1, spine.ptr, right.ptr, predecessor.2.2⟩) :=
    setA_of_load (unlinked.load_put_self _ _) true right.ptr
  have stored : Stored (linked.put predecessor.1
        ⟨predecessor.2.1, spine.ptr, right.ptr, predecessor.2.2⟩)
      (.node predecessor.1 predecessor.2.1 predecessor.2.2 spine right) := by
    refine ⟨?_, (storedSpine.put ?_ _).put ?_ _, (storedRight.put ?_ _).put ?_ _⟩
    · rw [load_put_self]
    all_goals grind
  rcases newHolds.replace_free stored rfl
      (fun addr mem => by
        rw [load_put_of_ne _ _ (by grind), linkedEq, load_put_of_ne _ _ (by grind)])
      (by grind) (by grind) with
    ⟨written, writes, finalHolds⟩
  rw [ptr_node] at writes
  refine ⟨written, ?_, finalHolds⟩
  simp only [replaceByPredecessor, descends, head?_cons, map_some,
    getD_some, apart, if_false, lastLoads, unlinks, loads, linksLeft, linkedLoads,
    linksRight, writes, Option.bind_eq_bind, Option.bind_some, Option.pure_def,
    map_cons, cons_append, tail_cons]

end Splice

/-- The loop up the right side of the left subtree, and from there on at the predecessor. -/
theorem balanceUp_splice {spine : List (Frame α κ)} {last : Tree α κ}
    (holds : Holds store (spine ++ ⟨leftAddr, leftKey, leftH, true, outer⟩ ::
      ⟨(Tree.last leftAddr leftKey leftH inner).1, (Tree.last leftAddr leftKey leftH inner).2.1,
        (Tree.last leftAddr leftKey leftH inner).2.2, false, right⟩ :: path) last)
    (removed : inner.removeLast = climb spine (last, true)) (pos : last.Positive)
    (spinePos : ∀ frame ∈ spine, frame.Positive)
    (splicePos : (splice leftAddr leftKey leftH outer inner right).Positive)
    (pathPos : ∀ frame ∈ path, frame.Positive) :
    ∃ next, balanceUp store ((slots spine
        (⟨leftAddr, leftKey, leftH, true, outer⟩ :: path)).tail ++ slots path []) = some next ∧
      Holds next [] (climb path (if inner.removeLast.2
        then (splice leftAddr leftKey leftH outer inner right).rebalance
        else (splice leftAddr leftKey leftH outer inner right, false))).1 := by
  rcases balanceUp_tail_holds (slots path []) holds pos spinePos with
    ⟨middle, middleHolds, loops⟩
  rw [← removed] at middleHolds loops
  have spliced : Holds middle path (splice leftAddr leftKey leftH outer inner right) :=
    holds_cons.mp (holds_cons.mp middleHolds)
  cases changed : inner.removeLast.2 with
  | false =>
    rw [changed] at loops
    refine ⟨middle, loops, ?_⟩
    rw [if_neg Bool.false_ne_true, climb_silent, ← holds_append, append_nil]
    exact spliced
  | true =>
    rw [changed] at loops
    rcases balanceUp_all spliced (by simp [splice]) splicePos pathPos with
      ⟨next, finishes, finalHolds⟩
    exact ⟨next, loops.trans finishes, finalHolds⟩

theorem removes_deeper
    (holds : Holds store path (.node n key h (.node leftAddr leftKey leftH outer inner) right))
    (pos : (node n key h (.node leftAddr leftKey leftH outer inner) right).Positive)
    (pathPos : ∀ frame ∈ path, frame.Positive) (ne : inner ≠ .nil)
    (rightNonempty : right ≠ .nil) :
    Removes store path n (.node leftAddr leftKey leftH outer inner) right := by
  have splicePos := (splice_keeps pos.2.1 pos.2.2 ne).2
  cases inner with
  | nil => exact absurd rfl ne
  | node innerAddr innerKey innerH innerLeft innerRight =>
    cases right with
    | nil => exact absurd rfl rightNonempty
    | node rightAddr rightKey rightH rightLeft rightRight =>
      have removes := removeNode_two holds (ptr_node ..) (ptr_node ..)
      have lastPos := lastPath_positive pos.2.1.2.2
      have removed := removeLast_eq_climb innerAddr innerKey innerH innerLeft innerRight
      have descent : lastPath leftAddr leftKey leftH outer
          (.node innerAddr innerKey innerH innerLeft innerRight) =
            lastPath innerAddr innerKey innerH innerLeft innerRight ++
              [⟨leftAddr, leftKey, leftH, true, outer⟩] := rfl
      generalize lastPath innerAddr innerKey innerH innerLeft innerRight = spine at *
      cases whole : spine ++ [(⟨leftAddr, leftKey, leftH, true, outer⟩ : Frame α κ)] with
      | nil => simp at whole
      | cons frame rest =>
        rcases replaceByPredecessor_holds holds (descent.trans whole) with
          ⟨changed, replaces, newHolds⟩
        rw [← whole, plug_append] at newHolds
        have stack : rest.map (fun frame => Slot.child frame.addr frame.right) =
            (slots spine (⟨leftAddr, leftKey, leftH, true, outer⟩ :: path)).tail := by
          have mapped := congrArg (fun frames : List (Frame α κ) => (frames.map
            fun frame => Slot.child frame.addr frame.right).tail) whole
          simpa [slots, slotOf] using mapped.symm
        rw [stack] at replaces
        rcases balanceUp_splice (holds_append.mpr (holds_cons.mpr (holds_cons.mpr newHolds)))
          removed lastPos.1 lastPos.2 splicePos pathPos with
          ⟨next, loops, finalHolds⟩
        exact ⟨changed, _, next, removes.trans replaces, loops, finalHolds⟩

theorem removeNode_holds (holds : Holds store path (.node n key h left right))
    (pos : (node n key h left right).Positive)
    (pathPos : ∀ frame ∈ path, frame.Positive) : Removes store path n left right := by
  cases left with
  | nil =>
    cases right with
    | nil => exact removes_leaf holds pathPos rfl rfl
    | node => exact removes_only holds pos pathPos (by simp) (.inl ⟨rfl, rfl⟩)
  | node leftAddr leftKey leftH outer inner =>
    cases right with
    | nil => exact removes_only holds pos pathPos (by simp) (.inr ⟨rfl, rfl⟩)
    | node =>
      cases inner with
      | nil => exact removes_direct holds pos pathPos rfl rfl
      | node => exact removes_deeper holds pos pathPos (by simp) (by simp)

variable {cmp : κ → κ → Int} {tree : Tree α κ} (holds : Holds store [] tree)
include holds

theorem tdelete_absent {key : κ} (absent : (descend cmp key [] tree).2 = .nil) :
    tdelete cmp store key = some (store, none) := by
  unfold tdelete
  split_ifs
  · rfl
  · simp [searchLoop_root holds, absent]

theorem tdelete_found {key : κ} (pos : tree.Positive)
    (found : (descend cmp key [] tree).2 ≠ .nil) :
    ∃ next result, tdelete cmp store key = some (next, some result) ∧
      Holds next [] (tree.delete cmp key).1 := by
  have place : Holds store (descend cmp key [] tree).1 (descend cmp key [] tree).2 :=
    descend_holds.mpr holds
  have placePos := descend_positive cmp key pos (forall_mem_nil _)
  have deletes := climb_delete cmp key [] tree
  have loop : searchLoop cmp store key (fuel store) store.root [.root] none = _ :=
    searchLoop_root holds key
  have notEmpty : store.root ≠ none := by
    rw [show store.root = tree.ptr from holds.storedPath]
    cases tree with
    | nil => exact absurd rfl found
    | node => simp
  cases atPlace : (descend cmp key [] tree).2 with
  | nil => exact absurd atPlace found
  | node n nodeKey h left right =>
    have equal := (descend_found cmp key [] tree atPlace).1
    rw [atPlace] at place placePos deletes loop
    generalize (descend cmp key [] tree).1 = path at *
    rcases removeNode_holds place placePos.1 placePos.2 with
      ⟨changed, nodes, next, removes, loops, finalHolds⟩
    refine ⟨next, (path.head?.map Frame.addr).getD n, ?_, ?_⟩
    · simp [tdelete, notEmpty, loop, removes, loops]
    have joined : (tree.delete cmp key).1 = (climb path (join left right)).1 := by
      rw [delete, if_pos equal] at deletes
      exact congrArg Prod.fst deletes.symm
    rwa [joined]

end Mlibc.Search
