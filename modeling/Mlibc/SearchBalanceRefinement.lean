import Mlibc.SearchHolds

/-! # Balancing in memory -/

namespace Mlibc.Search

open Tree Frame Store Option

variable {α κ : Type} [DecidableEq α]

theorem ext_load {first second : Store α κ} (root : first.root = second.root)
    (load : ∀ addr, first.load addr = second.load addr) : first = second := by
  cases first
  cases second
  cases root
  exact congrArg _ (Finmap.ext_lookup load)

variable {store : Store α κ} {tree : Tree α κ}

theorem Stored.height_eq (stored : Stored store tree) :
    height store tree.ptr = some tree.height := by
  cases tree with
  | nil => rfl
  | node addr key h left right => simp [height, stored.1]

theorem Stored.put (stored : Stored store tree)
    {addr : α} (notMember : addr ∉ tree.addrs) (node : Node α κ) :
    Stored (store.put addr node) tree :=
  stored.congr fun _ mem => store.load_put_of_ne node fun same => notMember (same ▸ mem)

theorem rotate_eq {nodep : Slot α} (side : Bool) {addr x : α}
    {node nodeX : Node α κ} {heightY heightZ : Int}
    (reads : store.read nodep = some (some addr)) (loads : store.load addr = some node)
    (childX : node.a side = some x) (loadsX : store.load x = some nodeX)
    (heightsY : height store (nodeX.a !side) = some heightY)
    (heightsZ : height store (nodeX.a side) = some heightZ) :
    rotate store nodep side =
      if heightY > heightZ then
        (nodeX.a !side).bind fun y =>
          (doubleRotation store side addr x y heightY).bind fun rotated =>
            finishRotation rotated nodep y node.h
      else
        (singleRotation store side addr x (nodeX.a !side) heightY).bind fun rotated =>
          finishRotation rotated nodep x node.h := by
  simp only [rotate, reads, loads, childX, loadsX, heightsY, heightsZ, bind_eq_bind, bind_some]

section Rotation

variable {store : Store α κ} (side : Bool) {addr x y : α} {node nodeX nodeY : Node α κ}
  (loads : store.load addr = some node) (loadsX : store.load x = some nodeX)
  (apart : addr ≠ x)
include loads loadsX apart

theorem singleRotation_eq (heightY : Int) :
    singleRotation store side addr x (nodeX.a !side) heightY =
      some ((store.put addr { node.setA side (nodeX.a !side) with h := heightY + 1 }).put x
        { nodeX.setA (!side) (some addr) with h := heightY + 2 }) := by
  simp only [singleRotation, setA, setH, bind_eq_bind, pure_def,
    bind_some, loads, loadsX, load_put, apart, apart.symm, if_true,
    if_false]
  refine congrArg some (ext_load rfl fun other => ?_)
  simp only [load_put]
  split_ifs <;> rfl

theorem doubleRotation_eq (loadsY : store.load y = some nodeY) (differentY : addr ≠ y)
    (differentXY : x ≠ y) (heightY : Int) :
    doubleRotation store side addr x y heightY =
      some (((store.put addr { node.setA side (nodeY.a !side) with h := heightY }).put x
        { nodeX.setA (!side) (nodeY.a side) with h := heightY }).put y
        { (nodeY.setA (!side) (some addr)).setA side (some x) with h := heightY + 1 }) := by
  simp only [doubleRotation, setA, setH, bind_eq_bind, pure_def,
    bind_some, loads, loadsX, loadsY, load_put, apart, apart.symm,
    differentY, differentY.symm, differentXY, differentXY.symm, if_true, if_false]
  refine congrArg some (ext_load rfl fun other => ?_)
  simp only [load_put]
  split_ifs <;> rfl

end Rotation

section Holds

variable {store : Store α κ} {path : List (Frame α κ)}

omit [DecidableEq α] in
theorem node_a (frame : Frame α κ) (child : Option α) : (frame.node child).a frame.right = child ∧
      (frame.node child).a (!frame.right) = frame.sibling.ptr := by
  unfold Frame.node Node.a
  cases frame.right <;> exact ⟨rfl, rfl⟩

omit [DecidableEq α] in
theorem node_h (frame : Frame α κ) (child : Option α) : (frame.node child).h = frame.h := by
  unfold Frame.node
  split_ifs <;> rfl

omit [DecidableEq α] in
theorem height_fill (frame : Frame α κ) (tree : Tree α κ) : (frame.fill tree).height = frame.h := by
  unfold fill
  split_ifs <;> rfl

theorem finishRotation_holds {changed : Store α κ} {tree subtree : Tree α κ}
    (frame : Frame α κ) (holds : Holds store path tree)
    (stored : Stored changed (frame.fill subtree)) (root : changed.root = store.root)
    (same : ∀ addr ∉ tree.addrs, changed.load addr = store.load addr)
    (addrs : (frame.fill subtree).addrs = tree.addrs) (oldH : Int) :
    ∃ next, finishRotation changed (slotOf path) frame.addr oldH = some (next, frame.h - oldH) ∧
      Holds next path (frame.fill subtree) := by
  have outside : ∀ addr ∈ pathAddrs path, changed.load addr = store.load addr := by
    intro addr inPath
    apply same
    exact fun inTree => (List.nodup_append.mp holds.nodup).2.2 addr inTree addr inPath rfl
  rcases holds.replace stored root outside (addrs ▸ holds.nodup) with
    ⟨written, writes, newHolds, _⟩
  refine ⟨written, ?_, newHolds⟩
  rw [ptr_fill] at writes
  simp [finishRotation, writes, (stored_fill.mp newHolds.stored).1, node_h]

theorem rotate_single (side : Bool) {addr x : α} {key keyX : κ} {h hX : Int} {y z sib : Tree α κ}
    (holds : Holds store path (fill ⟨addr, key, h, side, sib⟩ (fill ⟨x, keyX, hX, side, y⟩ z)))
    (outer : y.height ≤ z.height) :
    ∃ next, rotate store (slotOf path) side = some (next, y.height + 2 - h) ∧
      Holds next path (fill ⟨x, keyX, y.height + 2, !side, z⟩
        (fill ⟨addr, key, y.height + 1, side, sib⟩ y)) := by
  rcases stored_fill.mp holds.stored with ⟨loads, storedSibling, storedX⟩
  rcases stored_fill.mp storedX with ⟨loadsX, storedY, storedZ⟩
  have perm := (addrs_fill ⟨addr, key, h, side, sib⟩ _).trans
    ((addrs_fill ⟨x, keyX, hX, side, y⟩ z).append_right _)
  have nodup := perm.nodup_iff.mp (List.nodup_append.mp holds.nodup).1
  have apart : addr ≠ x := by grind
  have childX := node_a ⟨x, keyX, hX, side, y⟩ z.ptr
  have reads := holds.storedPath.read
  rw [ptr_fill] at reads loads
  rw [rotate_eq side reads loads (node_a _ _).1 loadsX (childX.2 ▸ storedY.height_eq)
    (childX.1 ▸ storedZ.height_eq), if_neg (not_lt.mpr outer),
    singleRotation_eq side loads loadsX apart, node_h]
  apply finishRotation_holds ⟨x, keyX, y.height + 2, !side, z⟩ holds
  · refine stored_fill.mpr ⟨?_, (storedZ.put ?_ _).put ?_ _, stored_fill.mpr
      ⟨?_, (storedSibling.put ?_ _).put ?_ _, (storedY.put ?_ _).put ?_ _⟩⟩
    · rw [load_put_self]
      cases side <;> rfl
    · grind
    · grind
    · rw [load_put_of_ne _ _ apart, load_put_self]
      cases side <;> rfl
    all_goals grind
  · rfl
  · intro other outside
    rw [load_put_of_ne _ _ (by grind), load_put_of_ne _ _ (by grind)]
  · cases side <;> simp [fill]

theorem rotate_double (side : Bool) {addr x y : α} {key keyX keyY : κ} {h hX hY : Int}
    {z inner outer sib : Tree α κ}
    (holds : Holds store path (fill ⟨addr, key, h, side, sib⟩
      (fill ⟨x, keyX, hX, !side, z⟩ (fill ⟨y, keyY, hY, side, inner⟩ outer))))
    (higher : z.height < hY) :
    ∃ next, rotate store (slotOf path) side = some (next, hY + 1 - h) ∧
      Holds next path (fill ⟨y, keyY, hY + 1, side, fill ⟨addr, key, hY, side, sib⟩ inner⟩
        (fill ⟨x, keyX, hY, !side, z⟩ outer)) := by
  rcases stored_fill.mp holds.stored with ⟨loads, storedSibling, storedX⟩
  rcases stored_fill.mp storedX with ⟨loadsX, storedZ, storedY⟩
  rcases stored_fill.mp storedY with ⟨loadsY, storedInner, storedOuter⟩
  have perm := (addrs_fill ⟨addr, key, h, side, sib⟩ _).trans
    (((addrs_fill ⟨x, keyX, hX, !side, z⟩ _).trans
      ((addrs_fill ⟨y, keyY, hY, side, inner⟩ outer).append_right _)).append_right _)
  have nodup := perm.nodup_iff.mp (List.nodup_append.mp holds.nodup).1
  have apart : addr ≠ x := by grind
  have differentY : addr ≠ y := by grind
  have differentXY : x ≠ y := by grind
  have childX := node_a ⟨x, keyX, hX, !side, z⟩ (some y)
  have childY := node_a ⟨y, keyY, hY, side, inner⟩ outer.ptr
  have heightY := storedY.height_eq
  have reads := holds.storedPath.read
  rw [ptr_fill] at reads loads loadsX heightY
  rw [height_fill] at heightY
  rw [Bool.not_not] at childX
  rw [rotate_eq side reads loads (node_a _ _).1 loadsX (childX.1 ▸ heightY)
    (childX.2 ▸ storedZ.height_eq), if_pos (gt_iff_lt.mpr higher), childX.1, bind_some,
    doubleRotation_eq side loads loadsX apart loadsY differentY differentXY, childY.1,
    childY.2, bind_some, node_h]
  apply finishRotation_holds ⟨y, keyY, hY + 1, side, _⟩ holds
  · refine stored_fill.mpr ⟨?_, stored_fill.mpr ⟨?_, ((storedSibling.put ?_ _).put ?_ _).put ?_ _,
      ((storedInner.put ?_ _).put ?_ _).put ?_ _⟩, stored_fill.mpr ⟨?_,
      ((storedZ.put ?_ _).put ?_ _).put ?_ _, ((storedOuter.put ?_ _).put ?_ _).put ?_ _⟩⟩
    · rw [load_put_self]
      cases side <;> simp [Frame.node, Node.setA]
    · rw [load_put_of_ne _ _ differentY, load_put_of_ne _ _ apart, load_put_self]
      cases side <;> rfl
    rotate_left 6
    · rw [load_put_of_ne _ _ differentXY, load_put_self]
      cases side <;> rfl
    all_goals grind
  · rfl
  · intro other outside
    rw [perm.mem_iff] at outside
    rw [load_put_of_ne _ _ (by grind), load_put_of_ne _ _ (by grind), load_put_of_ne _ _ (by grind)]
  · cases side <;> simp [fill]

theorem balanceTree_holds {addr : α} {key : κ} {h : Int} {left right : Tree α κ}
    (holds : Holds store path (.node addr key h left right))
    (pos : (node addr key h left right).Positive) :
    ∃ next, balanceTree store (slotOf path) = some (next, (node addr key h left right).balance.2) ∧
      Holds next path (node addr key h left right).balance.1 := by
  have balanced : Tree.Balanced (.node addr key h left right) _ :=
    balanced_balance pos.2.1 pos.2.2
  have unfolded : balanceTree store (slotOf path) =
      if (left.height - right.height).natAbs < 2 then
        (store.setH addr
          (if left.height < right.height then right.height + 1 else left.height + 1)).bind
          fun next => some (next,
            (if left.height < right.height then right.height + 1 else left.height + 1) - h)
      else rotate store (slotOf path) (decide (left.height < right.height)) := by
    rcases holds.stored with ⟨loads, storedLeft, storedRight⟩
    have reads : store.read (slotOf path) = some (some addr) := holds.storedPath.read
    simp only [balanceTree, reads, loads, storedLeft.height_eq, storedRight.height_eq,
      bind_eq_bind, bind_some, pure_def]
  rw [unfolded]
  generalize (node addr key h left right).balance = outcome at *
  cases balanced with
  | level leftLow rightLow =>
    have newH : (if left.height < right.height then right.height + 1 else left.height + 1) =
        1 + max left.height right.height := by
      split_ifs <;> omega
    rcases holds.stored with ⟨loads, storedLeft, storedRight⟩
    have nodup := holds.nodup
    rw [if_pos (by omega), newH, setH, loads]
    refine ⟨_, rfl, ⟨?_, storedLeft.put ?_ _, storedRight.put ?_ _⟩,
      holds.storedPath.congr ?_ rfl, holds.nodup⟩
    · rw [load_put_self]
    · grind
    · grind
    · intro other inPath
      exact load_put_of_ne _ _ (by grind)
  | single high outer =>
    rw [if_neg (by simp only [height_node]; omega),
      decide_eq_false (by simp only [height_node]; omega)]
    exact rotate_single false holds outer
  | double high inner =>
    rw [if_neg (by simp only [height_node]; omega),
      decide_eq_false (by simp only [height_node]; omega)]
    exact rotate_double false holds inner
  | singleMirrored high outer =>
    rw [if_neg (by simp only [height_node]; omega),
      decide_eq_true (by simp only [height_node]; omega)]
    exact rotate_single true holds outer
  | doubleMirrored high inner =>
    rw [if_neg (by simp only [height_node]; omega),
      decide_eq_true (by simp only [height_node]; omega)]
    exact rotate_double true holds inner

end Holds

/-! ### Going up -/

section Climb

omit [DecidableEq α]

def climb (path : List (Frame α κ)) (subtree : Tree α κ × Bool) : Tree α κ × Bool :=
  path.foldl (fun subtree frame => frame.rejoin subtree) subtree

/-- The slots from the end of the path `inner`, which continues `outer`, up to the end of
`outer`. -/
def slots (inner outer : List (Frame α κ)) : List (Slot α) :=
  inner.map (fun frame => .child frame.addr frame.right) ++ [slotOf outer]

theorem slots_eq_cons (path : List (Frame α κ)) :
    slots path [] = slotOf path :: (slots path []).tail := by
  cases path <;> rfl

theorem climb_silent (path : List (Frame α κ)) (tree : Tree α κ) :
    climb path (tree, false) = (plug path tree, false) := by
  induction path generalizing tree with
  | nil => rfl
  | cons frame path ih => exact ih (frame.fill tree)

end Climb

variable {path : List (Frame α κ)}

theorem balanceUp_step (holds : Holds store path tree) (ne : tree ≠ .nil) (pos : tree.Positive)
    (nodes : List (Slot α)) :
    ∃ next, Holds next path tree.rebalance.1 ∧ balanceUp store (slotOf path :: nodes) =
      if tree.rebalance.2 then balanceUp next nodes else some next := by
  cases tree with
  | nil => exact absurd rfl ne
  | node addr key h left right =>
    rcases balanceTree_holds holds pos with ⟨next, balances, newHolds⟩
    refine ⟨next, newHolds, ?_⟩
    rw [balanceUp, balances]
    by_cases unchanged : (node addr key h left right).balance.2 = 0
    · simp [rebalance]
    · simp [rebalance]

theorem balanceUp_holds {inner outer : List (Frame α κ)} (rest : List (Slot α))
    (holds : Holds store (inner ++ outer) tree) (ne : tree ≠ .nil)
    (pos : tree.Positive) (pathPos : ∀ frame ∈ inner, frame.Positive) :
    ∃ next, Holds next outer (climb inner tree.rebalance).1 ∧
      balanceUp store (slots inner outer ++ rest) =
        if (climb inner tree.rebalance).2 then balanceUp next rest else some next := by
  induction inner generalizing store tree with
  | nil => exact balanceUp_step holds ne pos rest
  | cons frame inner ih =>
    rcases balanceUp_step holds ne pos (slots inner outer ++ rest) with
      ⟨next, newHolds, steps⟩
    have framePos := pathPos frame List.mem_cons_self
    have newPositive := (rebalance_keeps pos).2
    cases changed : tree.rebalance.2 with
    | false =>
      have silent : climb (frame :: inner) tree.rebalance =
          (plug (frame :: inner) tree.rebalance.1, false) := by
        rw [← climb_silent, ← changed]
      rw [silent]
      refine ⟨next, holds_append.mp newHolds, ?_⟩
      rw [changed] at steps
      exact steps
    | true =>
      have reported : climb (frame :: inner) tree.rebalance =
          climb inner (frame.fill tree.rebalance.1).rebalance := by
        change climb inner (frame.rejoin tree.rebalance) = _
        rw [rejoin, if_pos changed]
      rw [changed] at steps
      rcases ih (holds_cons.mp newHolds) (frame.fill_ne_nil _) (fill_positive framePos newPositive)
          (fun other mem => pathPos other (List.mem_cons_of_mem _ mem)) with
        ⟨final, finalHolds, climbs⟩
      rw [reported]
      exact ⟨final, finalHolds, steps.trans climbs⟩

theorem balanceUp_all (holds : Holds store path tree) (ne : tree ≠ .nil) (pos : tree.Positive)
    (pathPos : ∀ frame ∈ path, frame.Positive) :
    ∃ next, balanceUp store (slots path []) = some next ∧
      Holds next [] (climb path tree.rebalance).1 := by
  rw [← List.append_nil path] at holds
  rcases balanceUp_holds [] holds ne pos pathPos with ⟨next, newHolds, loops⟩
  refine ⟨next, ?_, newHolds⟩
  rw [List.append_nil, balanceUp, ite_self] at loops
  exact loops

theorem balanceUp_tail_holds {inner outer : List (Frame α κ)} (rest : List (Slot α))
    (holds : Holds store (inner ++ outer) tree) (pos : tree.Positive)
    (pathPos : ∀ frame ∈ inner, frame.Positive) :
    ∃ next, Holds next outer (climb inner (tree, true)).1 ∧
      balanceUp store ((slots inner outer).tail ++ rest) =
        if (climb inner (tree, true)).2 then balanceUp next rest else some next := by
  cases inner with
  | nil => exact ⟨store, holds, rfl⟩
  | cons frame inner =>
    have framePos := pathPos frame List.mem_cons_self
    exact balanceUp_holds rest (holds_cons.mp holds) (frame.fill_ne_nil tree)
      (fill_positive framePos pos)
      fun other mem => pathPos other (List.mem_cons_of_mem _ mem)

theorem balanceUp_tail (holds : Holds store path tree) (pos : tree.Positive)
    (pathPos : ∀ frame ∈ path, frame.Positive) :
    ∃ next, balanceUp store (slots path []).tail = some next ∧
      Holds next [] (climb path (tree, true)).1 := by
  rw [← List.append_nil path] at holds
  rcases balanceUp_tail_holds [] holds pos pathPos with ⟨next, newHolds, loops⟩
  refine ⟨next, ?_, newHolds⟩
  rw [List.append_nil, balanceUp, ite_self] at loops
  exact loops

end Mlibc.Search
