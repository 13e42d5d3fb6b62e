import Mathlib.Data.List.DropRight

/-! # Path resolution in a file tree -/

namespace Mlibc

open List

abbrev PathString := List Char

namespace PathString

def terminator : Char := '\x00'

def components (text : PathString) : List PathString := text.splitOn '/'

def here : PathString := ['.']

def parent : PathString := ['.', '.']

def Ordinary (comp : PathString) : Prop :=
  comp ≠ [] ∧ comp ≠ here ∧ comp ≠ parent

instance (comp : PathString) : Decidable (Ordinary comp) := instDecidableAnd

def render (names : List PathString) : PathString := names.flatMap ('/' :: ·)

def canonical (names : List PathString) : PathString :=
  if names = [] then ['/'] else render names

def IsAbsolute (text : PathString) : Prop := text.head? = some '/'

instance (text : PathString) : Decidable (IsAbsolute text) :=
  inferInstanceAs (Decidable (text.head? = some '/'))

@[simp]
theorem render_nil : render [] = [] := rfl

@[simp]
theorem render_cons (name : PathString) (names : List PathString) :
    render (name :: names) = '/' :: (name ++ render names) := rfl

theorem render_append (names more : List PathString) :
    render (names ++ more) = render names ++ render more := flatMap_append

theorem render_concat (names : List PathString) (name : PathString) :
    render (names ++ [name]) = render names ++ '/' :: name := by
  rw [render_append, render_cons, render_nil, append_nil]

theorem components_append_slash {first : PathString} (unbroken : '/' ∉ first) (rest : PathString) :
    components (first ++ '/' :: rest) = first :: components rest :=
  splitOn_append_cons_self_of_not_mem unbroken rest

theorem components_of_unbroken {text : PathString} (unbroken : '/' ∉ text) :
    components text = [text] := splitOn_eq_singleton unbroken

theorem unbroken_or_slash (text : PathString) :
    '/' ∉ text ∨ ∃ first rest, '/' ∉ first ∧ text = first ++ '/' :: rest := by
  by_cases broken : '/' ∈ text
  · obtain ⟨first, rest, isText, unbroken⟩ := eq_append_cons_of_mem broken
    exact .inr ⟨first, rest, unbroken, isText⟩
  · exact .inl broken

theorem render_components (text : PathString) : render (components text) = '/' :: text := by
  induction isLength : text.length using Nat.strong_induction_on generalizing text with
  | _ length ih =>
    obtain unbroken | ⟨first, rest, unbroken, isText⟩ := unbroken_or_slash text
    · rw [components_of_unbroken unbroken, render_cons, render_nil, append_nil]
    have shorter : rest.length < length := by
      rw [← isLength, isText, length_append, length_cons]
      omega
    rw [isText, components_append_slash unbroken, render_cons, ih rest.length shorter rest rfl]

theorem components_tail_render {names : List PathString} (below : names ≠ [])
    (unbroken : ∀ name ∈ names, '/' ∉ name) : components (render names).tail = names := by
  induction names with
  | nil => exact absurd rfl below
  | cons name names ih =>
    have isUnbroken := unbroken name mem_cons_self
    cases names with
    | nil =>
      rw [render_cons, render_nil, append_nil, tail_cons, components_of_unbroken isUnbroken]
    | cons next names =>
      have isRest : components (next ++ render names) = next :: names :=
        ih (cons_ne_nil _ _) fun other mem => unbroken other (mem_cons_of_mem _ mem)
      rw [render_cons, render_cons, tail_cons, components_append_slash isUnbroken, isRest]

theorem components_append_slashes (text : PathString) (slashes : Nat) :
    components (text ++ replicate slashes '/') = components text ++ replicate slashes [] := by
  induction slashes with
  | zero => rw [replicate_zero, replicate_zero, append_nil, append_nil]
  | succ slashes ih =>
    have isEnd : components (text ++ replicate slashes '/' ++ '/' :: []) =
        components (text ++ replicate slashes '/') ++ components [] :=
      splitOn_append_cons_self _ _
    rw [replicate_succ', replicate_succ', ← append_assoc, isEnd, ih, ← append_assoc]
    rfl

end PathString

open PathString

/-- A node of a file tree. -/
inductive Node where
  | directory
  | file
  | symlink (target : PathString)
  deriving DecidableEq

structure ProperName (name : PathString) : Prop where
  ordinary : Ordinary name
  unbroken : '/' ∉ name
  unterminated : terminator ∉ name

instance (name : PathString) : Decidable (ProperName name) :=
  decidable_of_iff (Ordinary name ∧ '/' ∉ name ∧ terminator ∉ name)
    ⟨fun ⟨ordinary, unbroken, unterminated⟩ => ⟨ordinary, unbroken, unterminated⟩,
      fun proper => ⟨proper.ordinary, proper.unbroken, proper.unterminated⟩⟩

def Node.Proper : Node → Prop
  | .symlink target => target ≠ [] ∧ target.length < 512 ∧ terminator ∉ target
  | _ => True

instance : (node : Node) → Decidable node.Proper
  | .symlink target =>
    inferInstanceAs (Decidable (target ≠ [] ∧ target.length < 512 ∧ terminator ∉ target))
  | .directory => .isTrue trivial
  | .file => .isTrue trivial

def lookupNode (entries : List (List PathString × Node)) (names : List PathString) : Option Node :=
  if names = [] then some .directory else entries.lookup names

/-- The nodes by their paths; each one is in a directory, under proper names. -/
structure FileTree where
  entries : List (List PathString × Node)
  within : ∀ entry ∈ entries, lookupNode entries entry.1.dropLast = some .directory
  proper : ∀ entry ∈ entries, ∀ name ∈ entry.1, ProperName name
  nodes : ∀ entry ∈ entries, entry.2.Proper

namespace FileTree

variable (tree : FileTree)

def node (names : List PathString) : Option Node := lookupNode tree.entries names

def Located (names : List PathString) : Prop :=
  tree.node names = some .directory ∨ tree.node names = some .file

/-- Where one component of a path leads to, and the components of a link that come first. -/
def advance (loc : List PathString) (comp : PathString) :
    Option (List PathString × List PathString) :=
  if tree.node loc ≠ some .directory then none
  else if comp = [] ∨ comp = here then some (loc, [])
  else if comp = parent then some (loc.dropLast, [])
  else
    match tree.node (loc ++ [comp]) with
    | none => none
    | some (.symlink target) =>
      if IsAbsolute target then some ([], components target.tail)
      else some (loc, components target)
    | some _ => some (loc ++ [comp], [])

/-- The standard resolution from a node on: the names of a node, or none where a component does not
exist. -/
def resolve : Nat → List PathString → List PathString → Option (Option (List PathString))
  | _, loc, [] => some (some loc)
  | 0, _, _ :: _ => none
  | fuel + 1, loc, comp :: pending =>
    match tree.advance loc comp with
    | none => some none
    | some (next, inserted) => resolve fuel next (inserted ++ pending)

variable {tree} {fuel : Nat} {loc names pending : List PathString} {comp : PathString}
  {result : Option (List PathString)}

variable {found : Node}

theorem node_nil : tree.node [] = some .directory := rfl

theorem mem_entries (isNode : tree.node names = some found) (below : names ≠ []) :
    (names, found) ∈ tree.entries := by
  rw [node, lookupNode, if_neg below] at isNode
  obtain ⟨before, after, isEntries, -⟩ := lookup_eq_some_iff.mp isNode
  rw [isEntries]
  exact mem_append_right _ mem_cons_self

theorem directory_dropLast (isNode : tree.node names = some found) :
    tree.node names.dropLast = some .directory := by
  by_cases isRoot : names = []
  · rw [isRoot]
    exact node_nil
  · exact tree.within _ (mem_entries isNode isRoot)

theorem directory_of_entry (isNode : tree.node (names ++ [comp]) = some found) :
    tree.node names = some .directory := by
  have within := directory_dropLast isNode
  rwa [dropLast_concat] at within

theorem properName_of_mem {name : PathString} (isNode : tree.node names = some found)
    (mem : name ∈ names) : ProperName name :=
  tree.proper _ (mem_entries isNode (ne_nil_of_mem mem)) name mem

theorem proper_of_node (isNode : tree.node names = some found) : found.Proper := by
  by_cases isRoot : names = []
  · rw [isRoot, node_nil, Option.some_inj] at isNode
    rw [← isNode]
    exact trivial
  · exact tree.nodes _ (mem_entries isNode isRoot)

theorem Located.exists_node (located : tree.Located names) :
    ∃ found, tree.node names = some found :=
  located.elim (fun isDirectory => ⟨_, isDirectory⟩) fun isFile => ⟨_, isFile⟩

theorem Located.of_prefix (located : tree.Located names) {start : List PathString}
    (isStart : start <+: names) : tree.Located start := by
  induction names using reverseRecOn with
  | nil =>
    rw [prefix_nil.mp isStart]
    exact .inl node_nil
  | append_singleton names name ih =>
    obtain isAll | shorter := prefix_concat_iff.mp isStart
    · rwa [isAll]
    · obtain ⟨found, isNode⟩ := located.exists_node
      exact ih (.inl (directory_of_entry isNode)) shorter

section Advance

theorem advance_file (isFile : tree.node loc ≠ some .directory) :
    tree.advance loc comp = none := if_pos isFile

variable (isDirectory : tree.node loc = some .directory)

include isDirectory

theorem advance_here (isHere : comp = [] ∨ comp = here) :
    tree.advance loc comp = some (loc, []) := by
  rw [advance, if_neg (not_not.mpr isDirectory), if_pos isHere]

theorem advance_parent : tree.advance loc parent = some (loc.dropLast, []) := by
  rw [advance, if_neg (not_not.mpr isDirectory), if_neg (by decide), if_pos rfl]

theorem advance_ordinary (ordinary : Ordinary comp) : tree.advance loc comp =
      match tree.node (loc ++ [comp]) with
      | none => none
      | some (.symlink target) =>
        if IsAbsolute target then some ([], components target.tail)
        else some (loc, components target)
      | some _ => some (loc ++ [comp], []) := by
  obtain ⟨isName, notHere, notParent⟩ := ordinary
  rw [advance, if_neg (not_not.mpr isDirectory), if_neg (not_or.mpr ⟨isName, notHere⟩),
    if_neg notParent]

end Advance

theorem advance_missing (ordinary : Ordinary comp) (missing : tree.node (loc ++ [comp]) = none) :
    tree.advance loc comp = none := by
  by_cases isDirectory : tree.node loc = some .directory
  · rw [advance_ordinary isDirectory ordinary, missing]
  · exact advance_file isDirectory

theorem ordinary_of_node (isNode : tree.node (loc ++ [comp]) = some found) : Ordinary comp :=
  (properName_of_mem isNode (mem_append_right _ mem_cons_self)).ordinary

section

variable {target : PathString} (isLink : tree.node (loc ++ [comp]) = some (.symlink target))

include isLink

theorem advance_relative (relative : ¬ IsAbsolute target) :
    tree.advance loc comp = some (loc, components target) := by
  rw [advance_ordinary (directory_of_entry isLink) (ordinary_of_node isLink), isLink]
  exact if_neg relative

theorem advance_absolute (absolute : IsAbsolute target) :
    tree.advance loc comp = some ([], components target.tail) := by
  rw [advance_ordinary (directory_of_entry isLink) (ordinary_of_node isLink), isLink]
  exact if_pos absolute

end

theorem advance_located (located : tree.Located (loc ++ [comp])) :
    tree.advance loc comp = some (loc ++ [comp], []) := by
  obtain ⟨found, isNode⟩ := located.exists_node
  rw [advance_ordinary (directory_of_entry isNode) (ordinary_of_node isNode)]
  cases located with
  | inl isDirectory => rw [isDirectory]
  | inr isFile => rw [isFile]

theorem located_of_advance {next inserted : List PathString}
    (advances : tree.advance loc comp = some (next, inserted))
    (located : tree.Located loc) : tree.Located next := by
  rw [advance] at advances
  split_ifs at advances with isFile isHere isParent
  · cases advances
    exact located
  · cases advances
    exact .inl (directory_dropLast (not_not.mp isFile))
  cases found : tree.node (loc ++ [comp]) with
  | none =>
    rw [found] at advances
    cases advances
  | some node =>
    rw [found] at advances
    cases node with
    | directory =>
      cases advances
      exact .inl found
    | file =>
      cases advances
      exact .inr found
    | symlink target =>
      dsimp only at advances
      split_ifs at advances
      · cases advances
        exact .inl node_nil
      · cases advances
        exact located

section Resolve

theorem resolve_nil (fuel : Nat) : tree.resolve fuel loc [] = some (some loc) := by
  cases fuel <;> rfl

theorem resolve_none (stops : tree.advance loc comp = none) :
    tree.resolve (fuel + 1) loc (comp :: pending) = some none := by
  rw [resolve, stops]

theorem resolve_some {next inserted : List PathString}
    (advances : tree.advance loc comp = some (next, inserted)) :
    tree.resolve (fuel + 1) loc (comp :: pending) =
      tree.resolve fuel next (inserted ++ pending) := by
  rw [resolve, advances]

theorem resolve_located (resolved : tree.resolve fuel loc pending = some (some names))
    (located : tree.Located loc) : tree.Located names := by
  induction fuel generalizing loc pending with
  | zero =>
    cases pending with
    | nil =>
      cases resolved
      exact located
    | cons comp pending => cases resolved
  | succ fuel ih =>
    cases pending with
    | nil =>
      cases resolved
      exact located
    | cons comp pending =>
      cases advances : tree.advance loc comp with
      | none =>
        rw [resolve_none advances] at resolved
        cases resolved
      | some step =>
        rw [resolve_some advances] at resolved
        exact ih resolved (located_of_advance advances located)

theorem resolve_names (located : tree.Located (loc ++ names)) :
    tree.resolve (fuel + names.length) loc (names ++ pending) =
      tree.resolve fuel (loc ++ names) pending := by
  induction names generalizing loc with
  | nil => rw [append_nil]; rfl
  | cons name names ih =>
    have isConcat : loc ++ name :: names = loc ++ [name] ++ names := by
      rw [append_assoc, singleton_append]
    rw [isConcat] at located ⊢
    rw [length_cons, ← Nat.add_assoc, cons_append,
      resolve_some (advance_located (located.of_prefix (prefix_append _ _)))]
    exact ih located

end Resolve

/-- A node that the resolution ends at: its path has only proper names, and no part of it leads
to a link. -/
structure IsCanonical (tree : FileTree) (names : List PathString) : Prop where
  proper : ∀ name ∈ names, ProperName name
  located : ∀ start, start <+: names → tree.Located start

theorem Located.isCanonical (located : tree.Located names) : tree.IsCanonical names where
  proper := fun _ mem =>
    have ⟨_, isNode⟩ := located.exists_node
    properName_of_mem isNode mem
  located := fun _ isStart => located.of_prefix isStart

end FileTree

end Mlibc
