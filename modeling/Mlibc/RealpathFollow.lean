import Mlibc.RealpathSteps

/-! # The loops of `realpath` follow the resolution -/

namespace Mlibc.Realpath

open PathString Walk FileTree List

variable {calls : PathCalls} {tree : FileTree} {cwd : List PathString}
  {bufs after : Buffers} {segment : PathString} {loc link pending : List PathString}
  {fuel : Nat} {walk rest : Walk} {result : Option (List PathString)}
  {prog : Except Fault Buffers}

theorem properNames_of_located (located : tree.Located loc) : ProperNames loc :=
  located.isCanonical.proper

inductive Processed (calls : PathCalls) (tree : FileTree) (result : Option (List PathString))
    (fuel : Nat) (walk : Walk) (pending : List PathString) (prog : Except Fault Buffers) :
    Prop
  | failed (code : Errno) (isError : prog = .error (.errno code)) (unresolved : result = none)
  | went {after : Buffers} {less : Nat} {loc link : List PathString}
      (isOk : prog = .ok after) (isLess : less < fuel)
      (continues : Continues tree result fuel walk less ⟨loc, link, pending⟩)
      (holds : Holds after loc link)
  | spoiled {after : Buffers} (isOk : prog = .ok after) (isNested : tree.Nested walk)
      (isSpoiled : Spoiled after)

/-- How the program ends that consumes all of the links in front of the path. -/
inductive Consumed (tree : FileTree) (result : Option (List PathString)) (fuel : Nat) (walk : Walk)
    (pending : List PathString) (prog : Except Fault Buffers) : Prop
  | failed (code : Errno) (isError : prog = .error (.errno code)) (unresolved : result = none)
  | went {after : Buffers} {less : Nat} {loc : List PathString} (isOk : prog = .ok after)
      (continues : Continues tree result fuel walk less ⟨loc, [], pending⟩)
      (holds : Holds after loc [])
  | spoiled (nested : ∃ passed ∈ walks tree fuel walk, tree.Nested passed)
      (never : ∀ after, prog ≠ .ok after)

theorem Consumed.of_continues {less : Nat} {later : Walk}
    (continues : Continues tree result fuel walk less later)
    (consumed : Consumed tree result less later pending prog) :
    Consumed tree result fuel walk pending prog := by
  cases consumed with
  | failed code isError unresolved => exact .failed code isError unresolved
  | went isOk goesOn holds => exact .went isOk (continues.trans goesOn) holds
  | spoiled nested never =>
    obtain ⟨passed, mem, isNested⟩ := nested
    exact .spoiled ⟨passed, continues.passes passed mem, isNested⟩ never

section Follow

variable (serves : calls.Serves tree cwd) (sound : Sound tree fuel walk result)
  (pops : walk.pop = some (segment, rest)) (holds : Holds bufs rest.location rest.link)

include sound pops

theorem Sound.located_rest : tree.Located rest.location := (upcoming_of_pop pops).1 ▸ sound.located

theorem Sound.result_none (stops : tree.advance rest.location segment = none) : result = none := by
  obtain ⟨less, rfl⟩ := sound.fuel_pos pops
  have resolved := sound.resolved
  obtain ⟨isLocation, isUpcoming⟩ := upcoming_of_pop pops
  rw [isLocation, isUpcoming, FileTree.resolve_none stops, Option.some_inj] at resolved
  exact resolved.symm

include holds

theorem processSegment_special (special : ¬ Ordinary segment) :
    Processed calls tree result fuel walk rest.pending (processSegment calls segment bufs) := by
  have isDirectory : tree.node rest.location = some .directory := by
    have straight := (sound.straight walk mem_walks_self (segment, rest) pops).1
    exact straight.resolve_left special
  have noLink : tree.linkTarget rest.location segment = none := linkTarget_of_not_ordinary special
  by_cases isHere : segment = [] ∨ segment = here
  · obtain ⟨less, isLess, continues⟩ := sound.passes pops noLink (advance_here isDirectory isHere)
    exact .went (processSegment_here isHere) isLess continues holds
  have isParent : segment = parent := by
    by_contra notParent
    obtain ⟨notNil, notHere⟩ := not_or.mp isHere
    exact special ⟨notNil, notHere, notParent⟩
  subst isParent
  obtain ⟨less, isLess, continues⟩ := sound.passes pops noLink (advance_parent isDirectory)
  obtain ⟨removed, isRemoved, holdsRemoved⟩ := removeSegment_holds holds
    (properNames_of_located (Sound.located_rest sound pops))
  exact .went (processSegment_parent.trans isRemoved) isLess continues holdsRemoved

section Ordinary

variable (proper : ProperName segment)

include proper

theorem stringAt_appendSegment :
    stringAt (appendSegment segment bufs).resolv = render (rest.location ++ [segment]) := by
  have names : ProperNames (rest.location ++ [segment]) :=
    (properNames_of_located (Sound.located_rest sound pops)).concat proper
  rw [appendSegment_resolv holds.resolv]
  exact stringAt_terminator (unterminated_render names) []

include serves

theorem processSegment_located (located : tree.Located (rest.location ++ [segment])) :
    Processed calls tree result fuel walk rest.pending (processSegment calls segment bufs) := by
  obtain ⟨less, isLess, continues⟩ := sound.passes pops (linkTarget_of_located located)
    (advance_located located)
  refine .went ?_ isLess continues ⟨appendSegment_resolv holds.resolv, holds.unread⟩
  rw [processSegment_ordinary proper.ordinary,
    stringAt_appendSegment sound pops holds proper, serves.present _ _ located]

theorem processSegment_missing (missing : tree.node (rest.location ++ [segment]) = none) :
    Processed calls tree result fuel walk rest.pending (processSegment calls segment bufs) := by
  obtain ⟨code, isError⟩ := serves.missing _ _ (Sound.located_rest sound pops) proper missing
  refine .failed code ?_ (Sound.result_none sound pops (advance_missing proper.ordinary missing))
  rw [processSegment_ordinary proper.ordinary,
    stringAt_appendSegment sound pops holds proper, isError]

variable {target : PathString}
  (isLink : tree.node (rest.location ++ [segment]) = some (.symlink target))

include isLink

theorem processSegment_symlink : processSegment calls segment bufs =
      .ok (followLink bufs.resolv.length target (appendSegment segment bufs)) := by
  obtain ⟨isSymlink, isTarget⟩ := serves.symlink _ _ _ isLink
  have isText := stringAt_appendSegment sound pops holds proper
  rw [processSegment_ordinary proper.ordinary, isText, isSymlink]
  rw [isTarget]

theorem processSegment_absolute (absolute : IsAbsolute target) :
    Processed calls tree result fuel walk rest.pending (processSegment calls segment bufs) := by
  have isTarget : tree.linkTarget rest.location segment = some target := by
    rw [linkTarget, isLink]
  obtain ⟨located, ofDirectory⟩ :=
    (sound.straight walk mem_walks_self (segment, rest) pops).2 target isTarget absolute
  have unnested : ¬ tree.Nested walk := by
    rintro ⟨popped, isPopped, -, other, isOther, relative⟩
    rw [pops] at isPopped
    cases isPopped
    rw [isTarget] at isOther
    cases isOther
    exact relative absolute
  obtain ⟨slashes, isComponents, trailing⟩ := components_tail_target absolute
  obtain ⟨less, rfl⟩ := sound.fuel_pos pops
  have goes : walk.next tree = some ⟨[], targetNames target ++
      (replicate slashes [] ++ rest.link), rest.pending⟩ := by
    rw [next_of_pop pops, advance_absolute isLink absolute, isComponents, ← append_assoc]
    rfl
  have first := sound.continues goes unnested
  obtain ⟨middle, second⟩ := first.sound.passes_names located
  obtain ⟨last, third⟩ := second.sound.passes_slashes fun present => ofDirectory (trailing present)
  refine .went (processSegment_symlink serves sound pops holds proper isLink) ?_
    (first.trans (second.trans third)) ⟨?_, ?_⟩
  · exact Nat.lt_succ_of_le (third.less_le.trans second.less_le)
  · rw [followLink_absolute absolute, nil_append, render_targetNames absolute]
  · rw [followLink_absolute absolute]
    exact holds.unread

theorem processSegment_relative (relative : ¬ IsAbsolute target) :
    Processed calls tree result fuel walk rest.pending (processSegment calls segment bufs) := by
  have isTarget : tree.linkTarget rest.location segment = some target := by
    rw [linkTarget, isLink]
  have targetUnterminated : terminator ∉ target :=
    serves.unterminated _ _ (serves.symlink _ _ _ isLink).2
  have isProcessed := processSegment_symlink serves sound pops holds proper isLink
  rw [followLink_relative relative holds.resolv] at isProcessed
  by_cases unlinked : rest.link = []
  · obtain ⟨less, rfl⟩ := sound.fuel_pos pops
    have goes : walk.next tree = some ⟨rest.location, components target, rest.pending⟩ := by
      rw [next_of_pop pops, advance_relative isLink relative, unlinked]
      exact congrArg (fun link => some (Walk.mk rest.location link rest.pending)) (append_nil _)
    refine .went isProcessed (Nat.lt_succ_self _)
      (sound.continues goes (not_nested_of_link pops unlinked)) ⟨holds.resolv, ?_⟩
    have unread := holds.unread
    rw [unlinked] at unread
    rw [drop_of_length_le unread.finished.le, append_nil]
    exact .text targetUnterminated rfl (.start target)
  refine .spoiled isProcessed ⟨(segment, rest), pops, unlinked, target, isTarget, relative⟩ ?_
  cases holds.unread with
  | none isEmpty isStart isNothing => exact absurd isNothing unlinked
  | @text whole unterminated isText remaining =>
    have within : bufs.ls ≤ whole.length := by
      cases isRest : rest.link with
      | nil => exact absurd isRest unlinked
      | cons first more =>
        rw [isRest] at remaining
        exact remaining.place_le
    refine ⟨target ++ whole.drop bufs.ls, 0, ?_, ?_, Nat.zero_le _⟩
    · rw [mem_append, not_or]
      exact ⟨targetUnterminated, fun mem => unterminated (mem_of_mem_drop mem)⟩
    rw [isText, drop_append_of_le_length within, append_assoc, append_assoc, append_assoc]
    rfl

end Ordinary

include serves

variable (unbroken : '/' ∉ segment) (unterminated : terminator ∉ segment)

include unbroken unterminated

theorem processSegment_processed :
    Processed calls tree result fuel walk rest.pending (processSegment calls segment bufs) := by
  by_cases ordinary : Ordinary segment
  · have proper : ProperName segment := ⟨ordinary, unbroken, unterminated⟩
    cases isNode : tree.node (rest.location ++ [segment]) with
    | none => exact processSegment_missing serves sound pops holds proper isNode
    | some found =>
      cases found with
      | directory => exact processSegment_located serves sound pops holds proper (.inl isNode)
      | file => exact processSegment_located serves sound pops holds proper (.inr isNode)
      | symlink target =>
        by_cases absolute : IsAbsolute target
        · exact processSegment_absolute serves sound pops holds proper isNode absolute
        · exact processSegment_relative serves sound pops holds proper isNode absolute
  · exact processSegment_special sound pops holds ordinary

theorem segment_consumed {steps : Nat}
    (loop : ∀ less < fuel, ∀ {loc link : List PathString} {after : Buffers},
      Sound tree less ⟨loc, link, rest.pending⟩ result → Holds after loc link →
        Consumed tree result less ⟨loc, link, rest.pending⟩ rest.pending
          (linkLoop calls steps after)) :
    Consumed tree result fuel walk rest.pending
      ((processSegment calls segment bufs).bind (linkLoop calls steps)) := by
  cases processSegment_processed serves sound pops holds unbroken unterminated with
  | failed code isError unresolved =>
    rw [isError]
    exact .failed code rfl unresolved
  | went isOk isLess continues holdsAfter =>
    rw [isOk]
    exact (loop _ isLess continues.sound holdsAfter).of_continues continues
  | spoiled isOk isNested isSpoiled =>
    rw [isOk]
    exact .spoiled ⟨walk, mem_walks_self, isNested⟩
      fun after => linkLoop_spoiled serves.unterminated isSpoiled steps

end Follow

theorem linkLoop_consumed (serves : calls.Serves tree cwd) {steps : Nat} (enough : fuel < steps)
    (sound : Sound tree fuel ⟨loc, link, pending⟩ result)
    (holds : Holds bufs loc link) :
    Consumed tree result fuel ⟨loc, link, pending⟩ pending (linkLoop calls steps bufs) := by
  induction steps generalizing fuel loc link bufs with
  | zero => exact absurd enough (Nat.not_lt_zero _)
  | succ steps ih =>
    cases link with
    | nil =>
      have finished : ¬ bufs.ls < bufs.lnk.length := by
        rw [holds.unread.finished]
        exact Nat.lt_irrefl _
      refine .went ?_ (.refl sound) holds
      rw [linkLoop, if_neg finished]
    | cons segment link =>
      cases holds.unread with
      | none isEmpty isStart isNothing => cases isNothing
      | @text whole unterminated isText remaining =>
        have goesOn : bufs.ls < bufs.lnk.length := by
          rw [isText, length_append]
          exact Nat.lt_succ_of_le remaining.place_le
        obtain ⟨isSegment, behind⟩ := remaining.next unterminated []
        obtain ⟨segmentUnbroken, segmentUnterminated⟩ := remaining.next_unbroken unterminated
        have holdsBehind : Holds { bufs with ls := bufs.ls + segment.length + 1 }
            loc link := ⟨holds.resolv, .text unterminated isText behind⟩
        rw [linkLoop, if_pos goesOn, isText, isSegment, ← isText]
        apply segment_consumed serves sound rfl holdsBehind segmentUnbroken segmentUnterminated
        intro less isLess loc link after soundAfter holdsAfter
        exact ih (by omega) soundAfter holdsAfter

inductive Resolved (tree : FileTree) (result : Option (List PathString)) (fuel : Nat) (walk : Walk)
    (prog : Except Fault Buffers) : Prop
  | failed (code : Errno) (isError : prog = .error (.errno code)) (unresolved : result = none)
  | went {after : Buffers} {names : List PathString} (isOk : prog = .ok after)
      (isResult : result = some names) (located : tree.Located names)
      (isResolv : after.resolv = render names ++ [terminator])
      (unnested : ∀ passed ∈ walks tree fuel walk, ¬ tree.Nested passed)
  | spoiled (nested : ∃ passed ∈ walks tree fuel walk, tree.Nested passed)
      (never : ∀ after, prog ≠ .ok after)

theorem Resolved.of_continues {less : Nat} {later : Walk}
    (continues : Continues tree result fuel walk less later)
    (resolved : Resolved tree result less later prog) :
    Resolved tree result fuel walk prog := by
  cases resolved with
  | failed code isError unresolved => exact .failed code isError unresolved
  | went isOk isResult located isResolv unnested =>
    refine .went isOk isResult located isResolv ?_
    intro passed mem isNested
    exact unnested passed (continues.nested passed mem isNested) isNested
  | spoiled nested never =>
    obtain ⟨passed, mem, isNested⟩ := nested
    exact .spoiled ⟨passed, continues.passes passed mem, isNested⟩ never

theorem Sound.resolved_end (sound : Sound tree fuel ⟨loc, [], []⟩ result)
    (isResolv : bufs.resolv = render loc ++ [terminator]) :
    Resolved tree result fuel ⟨loc, [], []⟩ (.ok bufs) := by
  have isResult := sound.resolved
  rw [append_nil, resolve_nil, Option.some_inj] at isResult
  refine .went rfl isResult.symm sound.located isResolv ?_
  intro passed mem isNested
  have isEnd : walks tree fuel ⟨loc, [], []⟩ = [⟨loc, [], []⟩] := by
    cases fuel <;> rfl
  rw [isEnd, mem_singleton] at mem
  obtain ⟨popped, isPopped, -⟩ := isNested
  rw [mem] at isPopped
  cases isPopped

theorem pathLoop_resolved {path : PathString} {rounds ps steps : Nat}
    (serves : calls.Serves tree cwd) (unterminated : terminator ∉ path) (enough : fuel < steps)
    (roundsLeft : path.length < ps + rounds) (remaining : Remaining path ps pending)
    (sound : Sound tree fuel ⟨loc, [], pending⟩ result)
    (isResolv : bufs.resolv = render loc ++ [terminator]) (isEmpty : bufs.lnk = [])
    (isStart : bufs.ls = 0) (someRounds : rounds ≠ 0) :
    Resolved tree result fuel ⟨loc, [], pending⟩ (pathLoop calls steps path rounds ps bufs) := by
  induction rounds generalizing fuel ps loc pending bufs with
  | zero => exact absurd rfl someRounds
  | succ rounds ih =>
    cases pending with
    | nil =>
      have finished : ¬ ps < path.length := by
        rw [remaining.eq_of_nil]
        omega
      rw [pathLoop, if_neg finished]
      exact Sound.resolved_end sound isResolv
    | cons segment pending =>
      obtain ⟨isSegment, behind⟩ := remaining.next unterminated []
      obtain ⟨segmentUnbroken, segmentUnterminated⟩ := remaining.next_unbroken unterminated
      by_cases goesOn : ps < path.length
      · rw [pathLoop, if_pos goesOn, isSegment]
        have consumed : Consumed tree result fuel ⟨loc, [], segment :: pending⟩ pending
            ((processSegment calls segment bufs).bind (linkLoop calls steps)) := by
          apply segment_consumed serves sound rfl ⟨isResolv, .none isEmpty isStart rfl⟩
            segmentUnbroken segmentUnterminated
          intro less isLess loc link after soundAfter holdsAfter
          exact linkLoop_consumed serves (by omega) soundAfter holdsAfter
        cases consumed with
        | failed code isError unresolved =>
          dsimp only
          rw [isError]
          exact .failed code rfl unresolved
        | went isOk continues holds =>
          dsimp only
          rw [isOk]
          have fewer := continues.less_le
          apply Resolved.of_continues continues
          by_cases lastRound : rounds = 0
          · omega
          · exact ih (by omega) (by omega) behind continues.sound holds.resolv rfl rfl lastRound
        | spoiled nested never =>
          refine .spoiled nested fun after => ?_
          dsimp only
          cases prog : (processSegment calls segment bufs).bind (linkLoop calls steps) with
          | error fault => exact fun impossible => nomatch impossible
          | ok between => exact absurd prog (never between)
      · obtain ⟨rfl, rfl⟩ := remaining.eq_nil_of_le (not_lt.mp goesOn)
        have special : ¬ Ordinary [] := fun ordinary => ordinary.1 rfl
        have isDirectory : tree.node loc = some .directory :=
          (sound.straight _ mem_walks_self ([], ⟨loc, [], []⟩) rfl).1.resolve_left special
        obtain ⟨less, -, continues⟩ := sound.passes rfl (linkTarget_of_not_ordinary special)
          (advance_here isDirectory (.inl rfl))
        rw [pathLoop, if_neg goesOn]
        exact (Sound.resolved_end continues.sound isResolv).of_continues continues

end Mlibc.Realpath
