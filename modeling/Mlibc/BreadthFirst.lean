import Mathlib.Data.Fintype.Card
import Mathlib.Data.List.Nodup
import Mathlib.Logic.Relation

/-!
# Breadth-first scans of a graph

A scan looks at the vertex at its index and appends the successors that it has not pushed before.
-/

namespace Mlibc.BreadthFirst

open List

variable {α : Type*} {succs : α → List α} {root : α} {index : Nat} {order : List (α × Nat)}

def Edge (succs : α → List α) (vertex next : α) : Prop := next ∈ succs vertex

instance [DecidableEq α] (succs : α → List α) (vertex next : α) :
    Decidable (Edge succs vertex next) :=
  inferInstanceAs (Decidable (next ∈ succs vertex))

def Reaches (succs : α → List α) : α → α → Prop :=
  Relation.ReflTransGen (Edge succs)

/-- A path of the given length. -/
inductive Path (succs : α → List α) (src : α) : Nat → α → Prop where
  | refl : Path succs src 0 src
  | tail {length : Nat} {vertex next : α} : Path succs src length vertex → next ∈ succs vertex →
      Path succs src (length + 1) next

def Ordered (succs : α → List α) (root : α) (order : List α) : Prop :=
  order.Pairwise fun earlier later =>
    ∀ length, Path succs root length later → ∃ shorter ≤ length, Path succs root shorter earlier

theorem Path.reaches {src vertex : α} {length : Nat}
    (path : Path succs src length vertex) : Reaches succs src vertex := by
  induction path with
  | refl => exact Relation.ReflTransGen.refl
  | tail _ edge ih => exact Relation.ReflTransGen.tail ih edge

theorem exists_path_of_transGen {src vertex : α}
    (reaches : Relation.TransGen (Edge succs) src vertex) :
    ∃ length, Path succs src (length + 1) vertex := by
  induction reaches with
  | single edge => exact ⟨0, Path.tail Path.refl edge⟩
  | tail _ edge ih =>
    obtain ⟨length, path⟩ := ih
    exact ⟨length + 1, Path.tail path edge⟩

section Scan

variable [DecidableEq α]

def unseen (seen : List α) : List α → List α
  | [] => []
  | vertex :: rest =>
    if vertex ∈ seen then unseen seen rest else vertex :: unseen (vertex :: seen) rest

theorem mem_unseen (seen vertices : List α) (vertex : α) :
    vertex ∈ unseen seen vertices ↔ vertex ∈ vertices ∧ vertex ∉ seen := by
  induction vertices generalizing seen with
  | nil => simp [unseen]
  | cons first rest ih =>
    by_cases old : first ∈ seen
    · rw [unseen, if_pos old, ih]
      constructor
      · intro new
        exact ⟨mem_cons_of_mem first new.1, new.2⟩
      rintro ⟨listed, new⟩
      cases mem_cons.mp listed with
      | inl same => exact absurd (same ▸ old) new
      | inr later => exact ⟨later, new⟩
    · rw [unseen, if_neg old, mem_cons, ih]
      by_cases same : vertex = first
      · subst same
        simp [old]
      · simp [same]

theorem nodup_unseen (seen vertices : List α) : (unseen seen vertices).Nodup := by
  induction vertices generalizing seen with
  | nil => exact nodup_nil
  | cons first rest ih =>
    by_cases old : first ∈ seen
    · rw [unseen, if_pos old]
      exact ih seen
    rw [unseen, if_neg old, nodup_cons]
    constructor
    · intro again
      exact ((mem_unseen (first :: seen) rest first).mp again).2 (mem_cons_self ..)
    · exact ih (first :: seen)

end Scan

/-- The state of a scan before the vertex at the index is looked at, with the distances from the
root. -/
structure Scan (succs : α → List α) (root : α) (index : Nat) (order : List (α × Nat)) : Prop where
  first : order[0]? = some (root, 0)
  nodup : (order.tail.map Prod.fst).Nodup
  sorted : order.Pairwise fun earlier later => earlier.2 ≤ later.2
  near : ∀ current, order[index]? = some current → ∀ entry ∈ order, entry.2 ≤ current.2 + 1
  path : ∀ entry ∈ order, Path succs root entry.2 entry.1
  pushed : ∀ entry ∈ order.tail, 0 < entry.2
  closed : ∀ earlier < index, ∀ current, order[earlier]? = some current →
    ∀ next ∈ succs current.1, ∃ level ≤ current.2 + 1, (next, level) ∈ order.tail

theorem Scan.start (succs : α → List α) (root : α) : Scan succs root 0 [(root, 0)] where
  first := rfl
  nodup := nodup_nil
  sorted := pairwise_singleton ..
  near := by simp
  path := by
    intro entry listed
    rw [mem_singleton.mp listed]
    exact Path.refl
  pushed := by simp
  closed := by
    intro earlier before
    exact absurd before (Nat.not_lt_zero earlier)

theorem Scan.length_le (scan : Scan succs root index order) [Fintype α] :
    order.length ≤ Fintype.card α + 1 := by
  have bounded := List.Nodup.length_le_card scan.nodup
  rw [length_map, length_tail] at bounded
  omega

section Step

variable [DecidableEq α] {current : α × Nat}

def advance (succs : α → List α) (order : List (α × Nat)) (current : α × Nat) : List (α × Nat) :=
  order ++ (unseen (order.tail.map Prod.fst) (succs current.1)).map (·, current.2 + 1)

theorem Scan.tail_advance (scan : Scan succs root index order) :
    (advance succs order current).tail = order.tail ++
      (unseen (order.tail.map Prod.fst) (succs current.1)).map (·, current.2 + 1) := by
  apply tail_append_of_ne_nil
  intro empty
  have first := scan.first
  rw [empty] at first
  cases first

theorem mem_advance {entry : α × Nat} (listed : entry ∈ advance succs order current) :
    entry ∈ order ∨ entry.1 ∈ succs current.1 ∧ entry.2 = current.2 + 1 := by
  rcases mem_append.mp listed with old | new
  · exact .inl old
  · obtain ⟨vertex, unseenVertex, rfl⟩ := mem_map.mp new
    exact .inr ⟨((mem_unseen _ _ _).mp unseenVertex).1, rfl⟩

variable (scan : Scan succs root index order)

include scan

theorem Scan.advance_sorted (atIndex : order[index]? = some current) :
    (advance succs order current).Pairwise fun earlier later => earlier.2 ≤ later.2 := by
  refine pairwise_append.mpr ⟨scan.sorted, ?_, ?_⟩
  · refine pairwise_map.mpr (List.Pairwise.imp ?_ (nodup_unseen _ _))
    intro earlier later _
    exact le_rfl
  · intro old listed new pushed
    obtain ⟨vertex, _, rfl⟩ := mem_map.mp pushed
    exact scan.near current atIndex old listed

theorem Scan.advance_nodup : ((advance succs order current).tail.map Prod.fst).Nodup := by
  rw [scan.tail_advance, map_append, map_map, Function.comp_def]
  simp only [map_id']
  refine nodup_append.mpr ⟨scan.nodup, nodup_unseen _ _, ?_⟩
  intro old listed new pushed same
  subst same
  exact ((mem_unseen _ _ _).mp pushed).2 listed

theorem Scan.advance_closed (atIndex : order[index]? = some current) {next : α}
    (edge : next ∈ succs current.1) :
    ∃ level ≤ current.2 + 1, (next, level) ∈ (advance succs order current).tail := by
  rw [scan.tail_advance]
  by_cases old : next ∈ order.tail.map Prod.fst
  · obtain ⟨entry, listed, rfl⟩ := mem_map.mp old
    exact ⟨entry.2, scan.near current atIndex entry (mem_of_mem_tail listed),
      mem_append_left _ listed⟩
  · refine ⟨current.2 + 1, le_rfl, mem_append_right _ ?_⟩
    exact mem_map.mpr ⟨next, (mem_unseen _ _ _).mpr ⟨edge, old⟩, rfl⟩

theorem Scan.step (atIndex : order[index]? = some current) :
    Scan succs root (index + 1) (advance succs order current) := by
  have inOrder : current ∈ order := mem_of_getElem? atIndex
  have old : ∀ (position : Nat) (entry : α × Nat), order[position]? = some entry →
      (advance succs order current)[position]? = some entry := by
    intro position entry found
    obtain ⟨bound, _⟩ := List.getElem?_eq_some_iff.mp found
    rw [advance, getElem?_append_left bound]
    exact found
  have sorted := scan.advance_sorted atIndex
  refine ⟨old 0 _ scan.first, scan.advance_nodup, sorted, ?_, ?_, ?_, ?_⟩
  · intro following atNext entry listed
    have below : current.2 ≤ following.2 := by
      obtain ⟨curBound, same⟩ := List.getElem?_eq_some_iff.mp (old index _ atIndex)
      obtain ⟨nextBound, sameNext⟩ := List.getElem?_eq_some_iff.mp atNext
      have ordered := pairwise_iff_getElem.mp sorted index (index + 1) curBound nextBound
        (Nat.lt_succ_self index)
      rw [same, sameNext] at ordered
      exact ordered
    rcases mem_advance listed with inOld | ⟨_, level⟩
    · have := scan.near current atIndex entry inOld
      omega
    · omega
  · intro entry listed
    rcases mem_advance listed with inOld | ⟨edge, level⟩
    · exact scan.path entry inOld
    · rw [level]
      exact Path.tail (scan.path current inOrder) edge
  · intro entry listed
    rw [scan.tail_advance] at listed
    rcases mem_append.mp listed with inOld | new
    · exact scan.pushed entry inOld
    · obtain ⟨vertex, _, rfl⟩ := mem_map.mp new
      exact Nat.succ_pos current.2
  · intro earlier before entry atEarlier next edge
    by_cases same : earlier = index
    · subst same
      rw [old earlier _ atIndex] at atEarlier
      obtain rfl := Option.some.inj atEarlier
      exact scan.advance_closed atIndex edge
    have bound : earlier < order.length := by
      obtain ⟨indexBound, _⟩ := List.getElem?_eq_some_iff.mp atIndex
      omega
    rw [advance, getElem?_append_left bound] at atEarlier
    obtain ⟨level, near, listed⟩ := scan.closed earlier (by omega) entry atEarlier next edge
    refine ⟨level, near, ?_⟩
    rw [scan.tail_advance]
    exact mem_append_left _ listed

end Step

section Done

variable (scan : Scan succs root index order)

include scan

theorem Scan.complete (done : order.length ≤ index) {length : Nat} {vertex : α}
    (path : Path succs root (length + 1) vertex) :
    ∃ level ≤ length + 1, (vertex, level) ∈ order.tail := by
  have listed : ∀ entry ∈ order, ∀ next ∈ succs entry.1,
      ∃ level ≤ entry.2 + 1, (next, level) ∈ order.tail := by
    intro entry inOrder next edge
    obtain ⟨position, bound, rfl⟩ := mem_iff_getElem.mp inOrder
    exact scan.closed position (by omega) _ (getElem?_eq_getElem bound) next edge
  induction length generalizing vertex with
  | zero =>
    cases path with
    | tail start edge =>
      cases start with
      | refl => exact listed (root, 0) (mem_of_getElem? scan.first) vertex edge
  | succ length ih =>
    cases path with
    | tail start edge =>
      obtain ⟨level, near, inTail⟩ := ih start
      obtain ⟨next, nextNear, nextListed⟩ := listed _ (mem_of_mem_tail inTail) vertex edge
      exact ⟨next, by omega, nextListed⟩

theorem Scan.mem_tail_iff (done : order.length ≤ index) (vertex : α) :
    vertex ∈ order.tail.map Prod.fst ↔ Relation.TransGen (Edge succs) root vertex := by
  constructor
  · intro listed
    obtain ⟨entry, inTail, rfl⟩ := mem_map.mp listed
    obtain ⟨shorter, level⟩ := Nat.exists_eq_succ_of_ne_zero
      (Nat.pos_iff_ne_zero.mp (scan.pushed entry inTail))
    have path := scan.path entry (mem_of_mem_tail inTail)
    rw [level] at path
    cases path with
    | tail initial edge => exact Relation.TransGen.tail' initial.reaches edge
  · intro reaches
    obtain ⟨length, path⟩ := exists_path_of_transGen reaches
    obtain ⟨level, _, inTail⟩ := scan.complete done path
    exact mem_map.mpr ⟨_, inTail, rfl⟩

theorem Scan.eq_cons : order = (root, 0) :: order.tail := by
  cases order with
  | nil => exact absurd scan.first (by simp)
  | cons first rest =>
    have same := scan.first
    rw [Option.some.inj same, tail_cons]

variable (done : order.length ≤ index)

include done

theorem Scan.mem_iff (vertex : α) : vertex ∈ order.map Prod.fst ↔ Reaches succs root vertex := by
  rw [scan.eq_cons, map_cons, mem_cons, scan.mem_tail_iff done, Reaches,
    Relation.reflTransGen_iff_eq_or_transGen]

theorem Scan.nodup_iff :
    (order.map Prod.fst).Nodup ↔ ¬ Relation.TransGen (Edge succs) root root := by
  rw [scan.eq_cons, map_cons, nodup_cons, scan.mem_tail_iff done]
  constructor
  · intro distinct
    exact distinct.1
  · intro acyclic
    exact ⟨acyclic, scan.nodup⟩

theorem Scan.level_le_of_path (acyclic : ¬ Relation.TransGen (Edge succs) root root)
    {entry : α × Nat} (listed : entry ∈ order) {length : Nat}
    (path : Path succs root length entry.1) : entry.2 ≤ length := by
  have parts := listed
  rw [scan.eq_cons] at parts
  rcases mem_cons.mp parts with isRoot | inTail
  · rw [isRoot]
    exact Nat.zero_le length
  cases length with
  | zero =>
    have isRoot : entry.1 = root := by
      cases path
      rfl
    have again : root ∈ order.tail.map Prod.fst := mem_map.mpr ⟨entry, inTail, isRoot⟩
    exact absurd ((scan.mem_tail_iff done root).mp again) acyclic
  | succ length =>
    obtain ⟨level, near, sameVertex⟩ := scan.complete done path
    have same := inj_on_of_nodup_map scan.nodup inTail sameVertex rfl
    rw [same]
    exact near

theorem Scan.ordered (acyclic : ¬ Relation.TransGen (Edge succs) root root) :
    Ordered succs root (order.map Prod.fst) := by
  refine pairwise_map.mpr (scan.sorted.imp_of_mem ?_)
  intro earlier later earlierListed laterListed sorted length path
  refine ⟨earlier.2, ?_, scan.path earlier earlierListed⟩
  exact sorted.trans (scan.level_le_of_path done acyclic laterListed path)

end Done

end Mlibc.BreadthFirst
