import Mlibc.RealpathWalk

/-! # The segments of `realpath` -/

namespace Mlibc

open PathString List

/-- The calls of the system in a file tree, for a working directory. -/
structure PathCalls.Serves (calls : PathCalls) (tree : FileTree) (cwd : List PathString) :
    Prop where
  working : tree.node cwd = some .directory
  getcwd : ∀ size, calls.getcwd size =
    if (canonical cwd).length < size then .ok (canonical cwd) else .error .erange
  missing : ∀ names name, tree.Located names → ProperName name →
    tree.node (names ++ [name]) = none → ∃ code, calls.stat (render (names ++ [name])) = .error code
  present : ∀ names name, tree.Located (names ++ [name]) →
    calls.stat (render (names ++ [name])) = .ok false
  symlink : ∀ names name target, tree.node (names ++ [name]) = some (.symlink target) →
    calls.stat (render (names ++ [name])) = .ok true ∧
      calls.readlink (render (names ++ [name])) = .ok target
  unterminated : ∀ text target, calls.readlink text = .ok target → terminator ∉ target

namespace Realpath

open Walk FileTree

variable {calls : PathCalls} {tree : FileTree} {cwd : List PathString}
  {bufs after : Buffers} {segment : PathString} {loc link : List PathString}

/-- The text in `lnk` has more than one terminator behind it, and the offset is not behind the
first one. -/
def Spoiled (bufs : Buffers) : Prop :=
  ∃ whole extra, terminator ∉ whole ∧
    bufs.lnk = whole ++ terminator :: List.replicate (extra + 1) terminator ∧
    bufs.ls ≤ whole.length + 1

section Segment

theorem processSegment_here (isHere : segment = [] ∨ segment = here) :
    processSegment calls segment bufs = .ok bufs := if_pos isHere

theorem processSegment_parent : processSegment calls parent bufs = removeSegment bufs := by
  rw [processSegment, if_neg (by decide), if_pos rfl]

variable (ordinary : Ordinary segment)

include ordinary

theorem processSegment_ordinary :
    processSegment calls segment bufs =
      match calls.stat (stringAt (appendSegment segment bufs).resolv) with
      | .error code => .error (.errno code)
      | .ok false => .ok (appendSegment segment bufs)
      | .ok true =>
        match calls.readlink (stringAt (appendSegment segment bufs).resolv) with
        | .error code => .error (.errno code)
        | .ok target =>
          .ok (followLink bufs.resolv.length target (appendSegment segment bufs)) := by
  obtain ⟨isName, notHere, notParent⟩ := ordinary
  rewrite [processSegment, if_neg (not_or.mpr ⟨isName, notHere⟩), if_neg notParent]
  rfl

end Segment

theorem followLink_relative {target : PathString} (relative : ¬ IsAbsolute target)
    (isLocation : bufs.resolv = render loc ++ [terminator]) :
    followLink bufs.resolv.length target (appendSegment segment bufs) =
      { resolv := bufs.resolv
        lnk := target ++ bufs.lnk.drop bufs.ls ++ [terminator]
        ls := 0 } := by
  have isEnd : (render loc ++ [terminator]).length - 1 = (render loc).length := by
    rw [length_append, length_singleton, Nat.add_sub_cancel]
  have isRestored : (((appendSegment segment bufs).resolv.take bufs.resolv.length).set
      (bufs.resolv.length - 1) terminator) = bufs.resolv := by
    rw [appendSegment_resolv isLocation, isLocation, isEnd, render_concat, append_assoc,
      length_append, length_singleton, take_length_add_append, cons_append,
      take_succ_cons, take_zero, set_append_right _ _ le_rfl, Nat.sub_self,
      set_cons_zero]
  rw [followLink, if_neg relative, isRestored]
  rfl

theorem followLink_absolute {target : PathString} (absolute : IsAbsolute target) (rsz : Nat) :
    followLink rsz target bufs =
      { bufs with resolv := withoutTrailing target ++ [terminator] } := if_pos absolute

section Spoiled

variable (unterminated : ∀ text target, calls.readlink text = .ok target → terminator ∉ target)
  (spoiled : Spoiled bufs)

include unterminated spoiled

theorem processSegment_spoiled (processed : processSegment calls segment bufs = .ok after) :
    Spoiled after := by
  rw [processSegment] at processed
  split_ifs at processed with isHere isParent
  · cases processed
    exact spoiled
  · rw [removeSegment] at processed
    split_ifs at processed
    · cases isSlash : lastSlash bufs.resolv with
      | none =>
        rw [isSlash] at processed
        cases processed
      | some slash =>
        rw [isSlash] at processed
        cases processed
        exact spoiled
    · cases processed
      exact spoiled
  dsimp only at processed
  split at processed
  · cases processed
  · cases processed
    exact spoiled
  split at processed
  · cases processed
  rename_i target isTarget
  cases processed
  rw [followLink]
  split_ifs
  · exact spoiled
  obtain ⟨whole, extra, wholeUnterminated, isLnk, inside⟩ := spoiled
  have targetUnterminated := unterminated _ _ isTarget
  by_cases within : bufs.ls ≤ whole.length
  · refine ⟨target ++ whole.drop bufs.ls, extra + 1, ?_, ?_, Nat.zero_le _⟩
    · rw [mem_append, not_or]
      exact ⟨targetUnterminated, fun mem => wholeUnterminated (mem_of_mem_drop mem)⟩
    change target ++ bufs.lnk.drop bufs.ls ++ [terminator] = _
    rw [isLnk, drop_append_of_le_length within, append_assoc,
      append_assoc, append_assoc, cons_append,
      ← replicate_succ']
  · have isBehind : bufs.ls = whole.length + 1 := by omega
    refine ⟨target, extra, targetUnterminated, ?_, Nat.zero_le _⟩
    change target ++ bufs.lnk.drop bufs.ls ++ [terminator] = _
    rw [isLnk, isBehind, drop_append, drop_of_length_le (Nat.le_succ _),
      Nat.add_sub_cancel_left, nil_append, drop_succ_cons, drop_zero,
      append_assoc, ← replicate_succ', replicate_succ]

theorem linkLoop_spoiled (fuel : Nat) : linkLoop calls fuel bufs ≠ .ok after := by
  induction fuel generalizing bufs with
  | zero => rintro ⟨⟩
  | succ fuel ih =>
    obtain ⟨whole, extra, wholeUnterminated, isLnk, inside⟩ := spoiled
    have goesOn : bufs.ls < bufs.lnk.length := by
      rw [isLnk, length_append, length_cons, length_replicate]
      omega
    rw [linkLoop, if_pos goesOn]
    by_cases within : bufs.ls ≤ whole.length
    · have isWhole : whole = whole.take bufs.ls ++ whole.drop bufs.ls :=
        (take_append_drop _ _).symm
      have remaining : Remaining whole bufs.ls (components (whole.drop bufs.ls)) := by
        have start := Remaining.within isWhole
        rwa [length_take, Nat.min_eq_left within] at start
      cases isComponents : components (whole.drop bufs.ls) with
      | nil => exact absurd isComponents (components_ne_nil _)
      | cons segment pending =>
        rw [isComponents] at remaining
        obtain ⟨isSegment, behind⟩ := remaining.next wholeUnterminated
          (replicate (extra + 1) terminator)
        rw [isLnk, isSegment]
        dsimp only
        cases processed : processSegment calls segment
            { bufs with
              lnk := whole ++ terminator :: replicate (extra + 1) terminator
              ls := bufs.ls + segment.length + 1 } with
        | error fault => rintro ⟨⟩
        | ok next =>
          have still : Spoiled next :=
            processSegment_spoiled unterminated
              ⟨whole, extra, wholeUnterminated, rfl, behind.place_le_succ⟩ processed
          exact ih still
    · have isBehind : bufs.ls = whole.length + 1 := by omega
      have isRest : bufs.lnk.drop bufs.ls = terminator :: replicate extra terminator := by
        rw [isLnk, isBehind, drop_append, drop_of_length_le (Nat.le_succ _),
          Nat.add_sub_cancel_left, nil_append, drop_succ_cons, drop_zero,
          replicate_succ]
      have isNone : segmentAt bufs.lnk bufs.ls = none := by
        rw [segmentAt, isRest, ← nil_append (terminator :: replicate extra terminator),
          stringAt_terminator (not_mem_nil), if_neg not_mem_nil, isLnk,
          stringAt_terminator wholeUnterminated, if_neg (by omega)]
      rw [isNone]
      rintro ⟨⟩

end Spoiled

end Realpath

end Mlibc
