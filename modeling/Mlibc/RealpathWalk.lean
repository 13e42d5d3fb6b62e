import Mlibc.RealpathBuffers

/-! # The resolution that `realpath` follows -/

namespace Mlibc

open PathString List FileTree

/-- A state of the resolution: the location, the components that links have put in front, and the
ones of the path. -/
structure Walk where
  location : List PathString
  link : List PathString
  pending : List PathString
  deriving DecidableEq

namespace Walk

def pop : Walk → Option (PathString × Walk)
  | ⟨_, [], []⟩ => none
  | ⟨loc, [], comp :: pending⟩ => some (comp, ⟨loc, [], pending⟩)
  | ⟨loc, comp :: link, pending⟩ => some (comp, ⟨loc, link, pending⟩)

def next (tree : FileTree) (walk : Walk) : Option Walk :=
  walk.pop.bind fun (comp, rest) =>
    (tree.advance rest.location comp).map fun (loc, inserted) =>
      ⟨loc, inserted ++ rest.link, rest.pending⟩

def walks (tree : FileTree) : Nat → Walk → List Walk
  | 0, walk => [walk]
  | fuel + 1, walk =>
    walk ::
      match walk.next tree with
      | none => []
      | some later => walks tree fuel later

end Walk

namespace FileTree

variable (tree : FileTree)

def linkTarget (loc : List PathString) (comp : PathString) : Option PathString :=
  match tree.node (loc ++ [comp]) with
  | some (.symlink target) => some target
  | _ => none

def targetNames (target : PathString) : List PathString :=
  components (Realpath.withoutTrailing target).tail

/-- An absolute target that names a node below the root without links on the way. -/
def CanonicalTarget (target : PathString) : Prop :=
  tree.Located (targetNames target) ∧ (Realpath.withoutTrailing target ≠ target →
      tree.node (targetNames target) = some .directory)

/-- The next component is met in a directory, and an absolute link has a canonical target. -/
def Straight (walk : Walk) : Prop :=
  ∀ popped ∈ walk.pop, (Ordinary popped.1 ∨ tree.node popped.2.location = some .directory) ∧
      ∀ target ∈ tree.linkTarget popped.2.location popped.1,
        IsAbsolute target → tree.CanonicalTarget target

def Nested (walk : Walk) : Prop :=
  ∃ popped ∈ walk.pop, popped.2.link ≠ [] ∧
      ∃ target ∈ tree.linkTarget popped.2.location popped.1, ¬ IsAbsolute target

instance (names : List PathString) : Decidable (tree.Located names) :=
  inferInstanceAs (Decidable (_ ∨ _))

instance (target : PathString) : Decidable (tree.CanonicalTarget target) :=
  inferInstanceAs (Decidable (_ ∧ _))

instance (walk : Walk) : Decidable (tree.Straight walk) :=
  inferInstanceAs (Decidable (∀ popped ∈ walk.pop, _ ∧ _))

instance (walk : Walk) : Decidable (tree.Nested walk) :=
  inferInstanceAs (Decidable (∃ popped ∈ walk.pop, _ ∧ _))

end FileTree

namespace Walk

variable {tree : FileTree} {fuel : Nat} {walk later rest passed : Walk} {comp : PathString}
  {result : Option (List PathString)}

theorem upcoming_of_pop (pops : walk.pop = some (comp, rest)) : walk.location = rest.location ∧
      walk.link ++ walk.pending = comp :: (rest.link ++ rest.pending) := by
  obtain ⟨loc, link, pending⟩ := walk
  cases link with
  | cons first link =>
    cases pops
    exact ⟨rfl, rfl⟩
  | nil =>
    cases pending with
    | nil => cases pops
    | cons first pending =>
      cases pops
      exact ⟨rfl, rfl⟩

theorem next_of_pop (pops : walk.pop = some (comp, rest)) :
    walk.next tree = (tree.advance rest.location comp).map fun (loc, inserted) =>
      ⟨loc, inserted ++ rest.link, rest.pending⟩ := by
  rw [next, pops]
  rfl

theorem exists_pop_of_next (goes : walk.next tree = some later) :
    ∃ comp rest loc inserted, walk.pop = some (comp, rest) ∧
      tree.advance rest.location comp = some (loc, inserted) ∧
      later = ⟨loc, inserted ++ rest.link, rest.pending⟩ := by
  cases pops : walk.pop with
  | none =>
    rw [next, pops] at goes
    cases goes
  | some popped =>
    rw [next_of_pop pops] at goes
    obtain ⟨step, advances, isLater⟩ := Option.map_eq_some_iff.mp goes
    exact ⟨popped.1, popped.2, step.1, step.2, rfl, advances, isLater.symm⟩

/-- The resolution has a result, ends at no link, and goes straight on all the way. -/
structure Sound (tree : FileTree) (fuel : Nat) (walk : Walk) (result : Option (List PathString)) :
    Prop where
  located : tree.Located walk.location
  resolved : tree.resolve fuel walk.location (walk.link ++ walk.pending) = some result
  straight : ∀ passed ∈ walks tree fuel walk, tree.Straight passed

theorem mem_walks_self : walk ∈ walks tree fuel walk := by
  cases fuel <;> exact mem_cons_self

theorem walks_succ (goes : walk.next tree = some later) :
    walks tree (fuel + 1) walk = walk :: walks tree fuel later := by
  rw [walks, goes]

structure Continues (tree : FileTree) (result : Option (List PathString)) (fuel : Nat)
    (walk : Walk) (less : Nat) (later : Walk) : Prop where
  less_le : less ≤ fuel
  sound : Sound tree less later result
  passes : ∀ passed ∈ walks tree less later, passed ∈ walks tree fuel walk
  nested : ∀ passed ∈ walks tree fuel walk, tree.Nested passed → passed ∈ walks tree less later

theorem Continues.refl (sound : Sound tree fuel walk result) :
    Continues tree result fuel walk fuel walk :=
  ⟨le_rfl, sound, fun _ mem => mem, fun _ mem _ => mem⟩

theorem Continues.trans {middle less : Nat} {between : Walk}
    (first : Continues tree result fuel walk middle between)
    (second : Continues tree result middle between less later) :
    Continues tree result fuel walk less later where
  less_le := second.less_le.trans first.less_le
  sound := second.sound
  passes := fun passed mem => first.passes passed (second.passes passed mem)
  nested := fun passed mem isNested =>
    second.nested passed (first.nested passed mem isNested) isNested

theorem Sound.fuel_pos (sound : Sound tree fuel walk result)
    (pops : walk.pop = some (comp, rest)) : ∃ less, fuel = less + 1 := by
  cases fuel with
  | succ less => exact ⟨less, rfl⟩
  | zero =>
    have resolved := sound.resolved
    rw [(upcoming_of_pop pops).2] at resolved
    cases resolved

theorem Sound.continues (sound : Sound tree (fuel + 1) walk result)
    (goes : walk.next tree = some later) (unnested : ¬ tree.Nested walk) :
    Continues tree result (fuel + 1) walk fuel later := by
  have isWalks : walks tree (fuel + 1) walk = walk :: walks tree fuel later := walks_succ goes
  refine ⟨Nat.le_succ _, ⟨?_, ?_, ?_⟩, ?_, ?_⟩
  · obtain ⟨comp, rest, loc, inserted, pops, advances, rfl⟩ := exists_pop_of_next goes
    have located := sound.located
    rw [(upcoming_of_pop pops).1] at located
    exact located_of_advance advances located
  · obtain ⟨comp, rest, loc, inserted, pops, advances, rfl⟩ := exists_pop_of_next goes
    obtain ⟨isLocation, isUpcoming⟩ := upcoming_of_pop pops
    have resolved := sound.resolved
    rw [isUpcoming, isLocation, resolve_some advances, ← append_assoc] at resolved
    exact resolved
  · intro passed mem
    exact sound.straight passed (isWalks ▸ mem_cons_of_mem _ mem)
  · intro passed mem
    exact isWalks ▸ mem_cons_of_mem _ mem
  · intro passed mem isNested
    rw [isWalks] at mem
    cases mem_cons.mp mem with
    | inl isWalk => exact absurd (isWalk ▸ isNested) unnested
    | inr isLater => exact isLater

theorem not_nested_of_link (pops : walk.pop = some (comp, rest)) (unlinked : rest.link = []) :
    ¬ tree.Nested walk := by
  rintro ⟨popped, isPopped, stillLink, -⟩
  rw [pops] at isPopped
  cases isPopped
  exact stillLink unlinked

theorem linkTarget_of_located {loc : List PathString} (located : tree.Located (loc ++ [comp])) :
    tree.linkTarget loc comp = none := by
  cases located with
  | inl isDirectory => rw [linkTarget, isDirectory]
  | inr isFile => rw [linkTarget, isFile]

theorem linkTarget_of_not_ordinary {loc : List PathString} (special : ¬ Ordinary comp) :
    tree.linkTarget loc comp = none := by
  cases isNode : tree.node (loc ++ [comp]) with
  | none => rw [linkTarget, isNode]
  | some found => exact absurd (ordinary_of_node isNode) special

theorem Sound.passes {loc : List PathString} (sound : Sound tree fuel walk result)
    (pops : walk.pop = some (comp, rest))
    (noLink : tree.linkTarget rest.location comp = none)
    (advances : tree.advance rest.location comp = some (loc, [])) :
    ∃ less, less < fuel ∧ Continues tree result fuel walk less ⟨loc, rest.link, rest.pending⟩ := by
  obtain ⟨less, rfl⟩ := sound.fuel_pos pops
  refine ⟨less, Nat.lt_succ_self _, sound.continues ?_ ?_⟩
  · rw [next_of_pop pops, advances]
    rfl
  · rintro ⟨popped, isPopped, -, target, isTarget, -⟩
    rw [pops] at isPopped
    cases isPopped
    rw [noLink] at isTarget
    cases isTarget

variable {loc link pending : List PathString}

theorem Sound.passes_names {names : List PathString}
    (sound : Sound tree fuel ⟨loc, names ++ link, pending⟩ result)
    (located : tree.Located (loc ++ names)) :
    ∃ less, Continues tree result fuel ⟨loc, names ++ link, pending⟩ less
      ⟨loc ++ names, link, pending⟩ := by
  induction names generalizing loc fuel with
  | nil =>
    rw [append_nil]
    exact ⟨fuel, .refl sound⟩
  | cons name names ih =>
    have isConcat : loc ++ name :: names = loc ++ [name] ++ names := by
      rw [append_assoc, singleton_append]
    rw [isConcat] at located ⊢
    have isNode : tree.Located (loc ++ [name]) := located.of_prefix (prefix_append _ _)
    obtain ⟨middle, -, first⟩ := sound.passes rfl (linkTarget_of_located isNode)
      (advance_located isNode)
    obtain ⟨less, second⟩ := ih first.sound located
    exact ⟨less, first.trans second⟩

theorem Sound.passes_slashes {slashes : Nat}
    (sound : Sound tree fuel ⟨loc, replicate slashes [] ++ link, pending⟩ result)
    (isDirectory : slashes ≠ 0 → tree.node loc = some .directory) :
    ∃ less, Continues tree result fuel ⟨loc, replicate slashes [] ++ link, pending⟩ less
      ⟨loc, link, pending⟩ := by
  induction slashes generalizing fuel with
  | zero => exact ⟨fuel, .refl sound⟩
  | succ slashes ih =>
    have inside := isDirectory (Nat.succ_ne_zero _)
    obtain ⟨middle, -, first⟩ := sound.passes rfl
      (linkTarget_of_not_ordinary fun ordinary => ordinary.1 rfl)
      (advance_here inside (.inl rfl))
    obtain ⟨less, second⟩ := ih first.sound fun _ => inside
    exact ⟨less, first.trans second⟩

end Walk

section Targets

open Realpath FileTree

variable {tree : FileTree} {target : PathString}

theorem IsAbsolute.eq_cons (absolute : IsAbsolute target) : target = '/' :: target.tail := by
  cases target with
  | nil => cases absolute
  | cons first rest =>
    cases absolute
    rfl

theorem render_targetNames (absolute : IsAbsolute target) :
    render (targetNames target) = withoutTrailing target := by
  rw [targetNames, render_components, IsAbsolute.eq_cons absolute]
  rfl

theorem components_tail_target (absolute : IsAbsolute target) :
    ∃ slashes, components target.tail = targetNames target ++ replicate slashes [] ∧
      (slashes ≠ 0 → withoutTrailing target ≠ target) := by
  have isTarget := IsAbsolute.eq_cons absolute
  have isWithout : withoutTrailing target = '/' :: target.tail.rdropWhile (· = '/') := by
    rw [isTarget]
    rfl
  have isTail : target.tail =
      target.tail.rdropWhile (· = '/') ++ target.tail.rtakeWhile (· = '/') :=
    rdropWhile_append_rtakeWhile.symm
  have isSlashes : target.tail.rtakeWhile (· = '/') =
      replicate (target.tail.rtakeWhile (· = '/')).length '/' := by
    rw [eq_replicate_iff]
    refine ⟨rfl, fun character mem => ?_⟩
    have isSlash := mem_rtakeWhile_imp mem
    exact of_decide_eq_true isSlash
  refine ⟨(target.tail.rtakeWhile (· = '/')).length, ?_, ?_⟩
  · rw [targetNames, isWithout, tail_cons, ← components_append_slashes, ← isSlashes, ← isTail]
  intro present same
  rw [isWithout] at same
  have sameTail := congrArg tail same
  rw [tail_cons] at sameTail
  have lengths := congrArg length isTail
  rw [length_append, sameTail] at lengths
  omega

end Targets

end Mlibc
