import Mathlib.Data.Nat.Bitwise
import Mlibc.RealpathFollow

/-! # `realpath` and the standard resolution -/

namespace Mlibc

open PathString List

namespace FileTree

variable (tree : FileTree)

def enoent : Errno := .other 2

def enotdir : Errno := .other 20

def eloop : Errno := .other 40

/-- The node under an absolute path, without following the last component. -/
def lookup (limit : Nat) (text : PathString) : Except Errno Node :=
  let names := components text.tail
  match tree.resolve (limit + text.length) [] names.dropLast with
  | none => .error eloop
  | some none => .error enoent
  | some (some directory) =>
    if tree.node directory ≠ some .directory then .error enotdir
    else
      match tree.node (directory ++ [names.getLastD []]) with
      | some found => .ok found
      | none => if Ordinary (names.getLastD []) then .error enoent else .ok .directory

def calls (limit : Nat) (cwd : List PathString) : PathCalls where
  getcwd := fun size =>
    if (canonical cwd).length < size then .ok (canonical cwd) else .error .erange
  stat := fun text =>
    (tree.lookup limit text).map fun found =>
      match found with
      | .symlink _ => true
      | _ => false
  readlink := fun text =>
    (tree.lookup limit text).bind fun found =>
      match found with
      | .symlink target => .ok target
      | _ => .error .einval

variable {tree} {limit : Nat} {names cwd : List PathString} {name : PathString}

theorem length_le_render (names : List PathString) : names.length ≤ (render names).length := by
  induction names with
  | nil => exact le_rfl
  | cons name names ih =>
    rw [render_cons, length_cons, length_cons, length_append]
    omega

theorem lookup_render (located : tree.Located names) (proper : ProperName name) :
    tree.lookup limit (render (names ++ [name])) =
      if tree.node names ≠ some .directory then .error enotdir
      else
        match tree.node (names ++ [name]) with
        | some found => .ok found
        | none => .error enoent := by
  have unbroken : ∀ other ∈ names ++ [name], '/' ∉ other := by
    intro other mem
    cases mem_append.mp mem with
    | inl inNames => exact (located.isCanonical.proper other inNames).unbroken
    | inr isName =>
      rw [mem_singleton.mp isName]
      exact proper.unbroken
  have isComponents : components (render (names ++ [name])).tail = names ++ [name] :=
    components_tail_render (append_ne_nil_of_right_ne_nil _ (cons_ne_nil _ _)) unbroken
  have longer : names.length ≤ (render (names ++ [name])).length := by
    have isLonger := length_le_render (names ++ [name])
    rw [length_append] at isLonger
    omega
  obtain ⟨more, isMore⟩ := Nat.exists_eq_add_of_le longer
  have resolved : tree.resolve (limit + (render (names ++ [name])).length) [] names =
      some (some names) := by
    have toNames : tree.resolve (limit + more + names.length) [] (names ++ []) = _ :=
      resolve_names located
    rw [append_nil, resolve_nil] at toNames
    rw [isMore, add_comm names.length, ← add_assoc]
    exact toNames
  rw [lookup, isComponents, dropLast_concat, resolved, getLastD_concat]
  rw [if_pos proper.ordinary]

theorem lookup_node {found : Node} (isNode : tree.node (names ++ [name]) = some found) :
    tree.lookup limit (render (names ++ [name])) = .ok found := by
  have isDirectory := directory_of_entry isNode
  have proper := properName_of_mem isNode (mem_append_right _ mem_cons_self)
  rw [lookup_render (.inl isDirectory) proper, if_neg (not_not.mpr isDirectory), isNode]

theorem unterminated_of_lookup {text target : PathString}
    (isLink : tree.lookup limit text = .ok (.symlink target)) : terminator ∉ target := by
  rw [lookup] at isLink
  split at isLink
  · cases isLink
  · cases isLink
  split at isLink
  · cases isLink
  split at isLink
  · rename_i found isNode
    cases isLink
    exact (proper_of_node isNode).2.2
  · split at isLink <;> cases isLink

theorem calls_serves (working : tree.node cwd = some .directory) :
    (tree.calls limit cwd).Serves tree cwd where
  working := working
  getcwd := fun _ => rfl
  missing := by
    intro names name located proper missing
    rw [calls]
    dsimp only
    rw [lookup_render located proper, missing]
    split_ifs
    · exact ⟨enotdir, rfl⟩
    · exact ⟨enoent, rfl⟩
  present := by
    intro names name located
    rw [calls]
    dsimp only
    cases located with
    | inl isDirectory => rw [lookup_node isDirectory]; rfl
    | inr isFile => rw [lookup_node isFile]; rfl
  symlink := by
    intro names name target isLink
    rw [calls]
    dsimp only
    rw [lookup_node isLink]
    exact ⟨rfl, rfl⟩
  unterminated := by
    intro text target isTarget
    rw [calls] at isTarget
    dsimp only at isTarget
    cases found : tree.lookup limit text with
    | error code =>
      rw [found] at isTarget
      cases isTarget
    | ok node =>
      rw [found] at isTarget
      cases node with
      | directory | file => cases isTarget
      | symlink other =>
        cases isTarget
        exact unterminated_of_lookup found

end FileTree

namespace Realpath

open Walk

variable {calls : PathCalls} {tree : FileTree} {cwd : List PathString} {path : PathString}
  {fuel : Nat} {result : Option (List PathString)}

def start (cwd : List PathString) (path : PathString) : Walk :=
  if IsAbsolute path then ⟨[], [], components path.tail⟩ else ⟨cwd, [], components path⟩

/-- With enough fuel `realpath` returns the canonical path of the node that is the result, and fails
if there is none. -/
def Agrees (calls : PathCalls) (tree : FileTree) (path : PathString) :
    Option (List PathString) → Prop
  | some names => tree.IsCanonical names ∧
      ∃ enough, ∀ fuel, enough ≤ fuel → realpath calls fuel path = .ok (canonical names)
  | none => ∃ enough, ∀ fuel, enough ≤ fuel →
      ∃ code, realpath calls fuel path = .error (.errno code)

section Start

theorem getcwdLoop_ok (serves : calls.Serves tree cwd) {size : Nat}
    (large : (canonical cwd).length < size * 2 ^ fuel) :
    getcwdLoop calls (fuel + 1) size = .ok (canonical cwd) := by
  induction fuel generalizing size with
  | zero =>
    rw [pow_zero, mul_one] at large
    rw [getcwdLoop, serves.getcwd, if_pos large]
  | succ fuel ih =>
    rw [getcwdLoop, serves.getcwd]
    split_ifs with fits
    · rfl
    apply ih
    calc (canonical cwd).length < size * (2 ^ fuel * 2) := large
      _ = 2 * size * 2 ^ fuel := by rw [mul_comm 2 size, mul_assoc, mul_comm 2]

theorem canonical_eq_slash_iff {names : List PathString} (proper : ProperNames names) :
    canonical names = ['/'] ↔ names = [] := by
  constructor
  · intro isSlash
    cases names with
    | nil => rfl
    | cons name names =>
      have isNil := (append_eq_nil_iff.mp (cons.inj isSlash).2).1
      exact absurd isNil (proper name mem_cons_self).ordinary.1
  · intro isRoot
    rw [canonical, if_pos isRoot]

theorem initialResolv_ok (serves : calls.Serves tree cwd) (enough : (canonical cwd).length < fuel) :
    ∃ ps, initialResolv calls fuel path =
        .ok (render (start cwd path).location ++ [terminator], ps) ∧
      Remaining path ps (start cwd path).pending := by
  by_cases absolute : IsAbsolute path
  · refine ⟨1, ?_, ?_⟩
    · rw [initialResolv, if_pos absolute, start, if_pos absolute]
      rfl
    · have isPath : path = ['/'] ++ path.tail := IsAbsolute.eq_cons absolute
      rw [start, if_pos absolute]
      exact .within isPath
  obtain ⟨less, rfl⟩ := Nat.exists_eq_add_of_lt enough
  have large : (canonical cwd).length < 128 * 2 ^ ((canonical cwd).length + less) := by
    have grows : (canonical cwd).length + less < 2 ^ ((canonical cwd).length + less) :=
      Nat.lt_two_pow_self
    omega
  refine ⟨0, ?_, ?_⟩
  · rw [initialResolv, if_neg absolute, getcwdLoop_ok serves large, start, if_neg absolute]
    have proper : ProperNames cwd := properNames_of_located (.inl serves.working)
    change Except.ok (if canonical cwd = ['/'] then [terminator]
      else canonical cwd ++ [terminator], 0) = _
    by_cases isRoot : cwd = []
    · rw [isRoot]
      rfl
    · rw [if_neg (mt (canonical_eq_slash_iff proper).mp isRoot), canonical, if_neg isRoot]
  · rw [start, if_neg absolute]
    exact .start path

end Start

theorem finish_ok {bufs : Buffers} {names : List PathString} (proper : ProperNames names)
    (isResolv : bufs.resolv = render names ++ [terminator])
    (fits : (canonical names).length < pathMax) : finish bufs = .ok (canonical names) := by
  have unterminated := unterminated_render proper
  have isText : (if bufs.resolv.length = 1 then ['/', terminator] else bufs.resolv) =
      canonical names ++ [terminator] := by
    rw [isResolv, length_append, length_singleton, canonical]
    cases names with
    | nil => rfl
    | cons name names =>
      rw [if_neg (cons_ne_nil _ _), if_neg]
      rw [render_cons, length_cons]
      omega
  have short : ¬ (canonical names ++ [terminator]).length > pathMax := by
    rw [length_append, length_singleton]
    omega
  have canonicalUnterminated : terminator ∉ canonical names := by
    rw [canonical]
    split_ifs
    · decide
    · exact unterminated
  rw [finish, isText, if_neg short, stringAt_terminator canonicalUnterminated]

theorem realpath_resolved (serves : calls.Serves tree cwd) (unterminated : terminator ∉ path)
    (sound : Sound tree fuel (start cwd path) result) {steps : Nat} (enough : fuel < steps)
    (enoughToo : (canonical cwd).length < steps) :
    ∃ prog, Resolved tree result fuel (start cwd path) prog ∧
      realpath calls steps path = prog.bind finish := by
  obtain ⟨ps, isInitial, remaining⟩ := initialResolv_ok serves enoughToo
  have noLink : (start cwd path).link = [] := by
    rw [start]
    split_ifs <;> rfl
  have isStart : start cwd path = ⟨(start cwd path).location, [], (start cwd path).pending⟩ := by
    rw [← noLink]
  rw [isStart] at sound ⊢
  refine ⟨pathLoop calls steps path (path.length + 1) ps
    ⟨render (start cwd path).location ++ [terminator], [], 0⟩, ?_, ?_⟩
  · exact pathLoop_resolved serves unterminated enough (by omega) remaining sound rfl rfl rfl
      (Nat.succ_ne_zero _)
  · rw [realpath, isInitial]
    rfl

/-- If the standard resolution goes straight on, `realpath` agrees with it if and only if it passes
no relative link while components of another link are still to come. -/
theorem realpath_agrees_iff (serves : calls.Serves tree cwd) (unterminated : terminator ∉ path)
    (resolved : tree.resolve fuel (start cwd path).location (start cwd path).pending = some result)
    (straight : ∀ passed ∈ walks tree fuel (start cwd path), tree.Straight passed)
    (fits : ∀ names ∈ result, (canonical names).length < pathMax)
    (failing : result = none → ∀ passed ∈ walks tree fuel (start cwd path), ¬ tree.Nested passed) :
    Agrees calls tree path result ↔
      ∀ passed ∈ walks tree fuel (start cwd path), ¬ tree.Nested passed := by
  have located : tree.Located (start cwd path).location := by
    rw [start]
    split_ifs
    · exact .inl FileTree.node_nil
    · exact .inl serves.working
  have sound : Sound tree fuel (start cwd path) result := by
    refine ⟨located, ?_, straight⟩
    have noLink : (start cwd path).link = [] := by
      rw [start]
      split_ifs <;> rfl
    rw [noLink]
    exact resolved
  have ends : ∀ steps, fuel + (canonical cwd).length + 1 ≤ steps →
      ∃ prog, Resolved tree result fuel (start cwd path) prog ∧
        realpath calls steps path = prog.bind finish :=
    fun steps enough => realpath_resolved serves unterminated sound (by omega) (by omega)
  constructor
  · intro agrees
    cases result with
    | none => exact failing rfl
    | some names =>
      obtain ⟨-, enough, returns⟩ := agrees
      obtain ⟨prog, ended, isRealpath⟩ := ends (enough + fuel + (canonical cwd).length + 1)
        (by omega)
      have isOk := returns (enough + fuel + (canonical cwd).length + 1) (by omega)
      rw [isRealpath] at isOk
      cases ended with
      | failed code isError unresolved => cases unresolved
      | went isAfter isResult isLocated isResolv unnested => exact unnested
      | spoiled nested never =>
        cases prog with
        | error fault => cases isOk
        | ok after => exact absurd rfl (never after)
  intro unnested
  cases result with
  | none =>
    refine ⟨fuel + (canonical cwd).length + 1, fun steps enough => ?_⟩
    obtain ⟨prog, ended, isRealpath⟩ := ends steps enough
    cases ended with
    | failed code isError unresolved => exact ⟨code, by rw [isRealpath, isError]; rfl⟩
    | went isAfter isResult isLocated isResolv unnested => cases isResult
    | spoiled nested never =>
      obtain ⟨passed, mem, isNested⟩ := nested
      exact absurd isNested (unnested passed mem)
  | some names =>
    have isLocated := FileTree.resolve_located resolved located
    refine ⟨isLocated.isCanonical, fuel + (canonical cwd).length + 1, fun steps enough => ?_⟩
    obtain ⟨prog, ended, isRealpath⟩ := ends steps enough
    cases ended with
    | failed code isError unresolved => cases unresolved
    | went isAfter isResult nodeLocated isResolv unnested =>
      cases isResult
      rw [isRealpath, isAfter]
      exact finish_ok (properNames_of_located isLocated) isResolv (fits _ rfl)
    | spoiled nested never =>
      obtain ⟨passed, mem, isNested⟩ := nested
      exact absurd isNested (unnested passed mem)

def linkedTree : FileTree where
  entries :=
    [([['d']], .directory), ([['d'], ['f']], .file), ([['l']], .symlink ['d', '/', '.']),
      ([['k']], .symlink ['/', 'd', '/'])]
  within := by decide
  proper := by decide
  nodes := by decide

theorem realpath_agrees_linked :
    Agrees (linkedTree.calls 0 [['d']]) linkedTree "../l/../k/f".toList (some [['d'], ['f']]) ∧
      Agrees (linkedTree.calls 0 [['d']]) linkedTree "../l/g".toList none := by
  have serves : (linkedTree.calls 0 [['d']]).Serves linkedTree [['d']] :=
    FileTree.calls_serves (by decide)
  have found : linkedTree.resolve 12 (start [['d']] "../l/../k/f".toList).location
      (start [['d']] "../l/../k/f".toList).pending = some (some [['d'], ['f']]) := by
    decide +kernel
  have missing : linkedTree.resolve 12 (start [['d']] "../l/g".toList).location
      (start [['d']] "../l/g".toList).pending = some none := by
    decide +kernel
  constructor
  · apply (realpath_agrees_iff serves (by decide +kernel) found (by decide +kernel)
      (by decide +kernel) (by decide +kernel)).mpr
    decide +kernel
  · apply (realpath_agrees_iff serves (by decide +kernel) missing (by decide +kernel)
      (by decide +kernel) (by decide +kernel)).mpr
    decide +kernel

/-- A link through another link, a link to the root, and an absolute link through another link. -/
def nestedTree : FileTree where
  entries :=
    [([['a']], .symlink ['b', '/', 'c']), ([['b']], .symlink ['d']), ([['d']], .directory),
      ([['d'], ['c']], .directory), ([['r']], .symlink ['/']), ([['m']], .symlink ['/', 'b'])]
  within := by decide
  proper := by decide
  nodes := by decide

/-- The pending `c` is joined to the target of `b`; and two results are not canonical. -/
theorem realpath_nested_fails : nestedTree.resolve 8 [] [['a']] = some (some [['d'], ['c']]) ∧
      (∀ fuel, realpath (nestedTree.calls 8 []) (fuel + 8) "/a".toList =
        .error (.errno FileTree.enoent)) ∧
      nestedTree.resolve 8 [] [['r'], ['d']] = some (some [['d']]) ∧
      (∀ fuel, realpath (nestedTree.calls 8 []) (fuel + 8) "/r/d".toList = .ok "//d".toList) ∧
      nestedTree.resolve 8 [] [['m']] = some (some [['d']]) ∧
      ∀ fuel, realpath (nestedTree.calls 8 []) (fuel + 8) "/m".toList = .ok "/b".toList := by
  exact ⟨by decide +kernel, fun fuel => rfl, by decide +kernel, fun fuel => rfl,
    by decide +kernel, fun fuel => rfl⟩

end Realpath

end Mlibc
