import Mlibc.BreadthFirst
import Mlibc.Loader

/-! # Linking the objects of a load -/

namespace Mlibc.Loader

open BreadthFirst List Function

variable {α : Type}

def State.dependencies (s : State α) (obj : α) : List α :=
  (s.objects obj).dependencies

/-- The alignment of every TLS segment is zero or a power of two, as the format of the
objects requires. -/
def State.Aligned (s : State α) : Prop :=
  ∀ obj, (s.objects obj).tlsAlignment &&& ((s.objects obj).tlsAlignment - 1) = 0

section Rules

variable {s : State α} {fails : Fault → State α → Prop} {returns : Unit → State α → Prop}

theorem ends_ensure {cond : Prop} [Decidable cond]
    (holds : cond) : Ends (ensure cond) s returns fails ↔ returns () s :=
  ends_require_of holds

@[simp]
theorem ends_getObject (obj : α) {returns : SharedObject α → State α → Prop} :
    Ends (getObject obj) s returns fails ↔ returns (s.objects obj) s :=
  .rfl

@[simp]
theorem ends_modifyObject [DecidableEq α] (obj : α) (change : SharedObject α → SharedObject α) :
    Ends (modifyObject obj change) s returns fails ↔ returns () (s.update obj change) :=
  .rfl

end Rules

section Scan

variable [DecidableEq α]

theorem pushDependencies_eq (dependencies : List α) (set : Finset α) (linkBfs pushed : List α)
    (same : ∀ obj, obj ∈ set ↔ obj ∈ pushed) :
    (pushDependencies dependencies set linkBfs).2 = linkBfs ++ unseen pushed dependencies ∧
      ∀ obj, obj ∈ (pushDependencies dependencies set linkBfs).1 ↔
        obj ∈ pushed ++ unseen pushed dependencies := by
  induction dependencies generalizing set linkBfs pushed with
  | nil => simp [pushDependencies, unseen, same]
  | cons dep rest ih =>
    by_cases old : dep ∈ pushed
    · rw [pushDependencies, if_pos ((same dep).mpr old), unseen, if_pos old]
      exact ih set linkBfs pushed same
    have more : ∀ obj, obj ∈ insert dep set ↔ obj ∈ dep :: pushed := by
      intro obj
      rw [Finset.mem_insert, mem_cons, same]
    obtain ⟨list, members⟩ := ih (insert dep set) (linkBfs ++ [dep]) (dep :: pushed) more
    rw [pushDependencies, if_neg (fun inSet => old ((same dep).mp inSet)), unseen, if_neg old]
    constructor
    · rw [list, append_assoc, singleton_append]
    intro obj
    rw [members]
    simp only [mem_append, mem_cons]
    tauto

theorem ends_buildLinkBfsLoop [Fintype α] (ld : Loader α) {before : State α} {root : α}
    {fuel index : Nat} {set : Finset α} {order : List (α × Nat)} {s : State α}
    (scan : Scan before.dependencies root index order)
    (same : ∀ obj, obj ∈ set ↔ obj ∈ order.tail.map Prod.fst)
    (inside : index ≤ order.length) (enough : Fintype.card α + 2 ≤ index + fuel)
    (unchanged : ∃ align, s = { before with tlsMaxAlignment := align }) :
    Ends (buildLinkBfsLoop ld fuel index set (order.map Prod.fst)) s
      (fun linkBfs after => (∃ order : List (α × Nat), linkBfs = order.map Prod.fst ∧
          Scan before.dependencies root order.length order) ∧
        ∃ align, after = { before with tlsMaxAlignment := align })
      (fun _ _ => ¬before.Aligned) := by
  induction fuel generalizing index set order s with
  | zero =>
    have := scan.length_le
    omega
  | succ fuel ih =>
    obtain ⟨align, rfl⟩ := unchanged
    rw [buildLinkBfsLoop]
    cases found : order[index]? with
    | none =>
      have past : order.length = index := by
        have := getElem?_eq_none_iff.mp found
        omega
      simp only [getElem?_map, found]
      exact ⟨⟨order, rfl, past ▸ scan⟩, align, rfl⟩
    | some current =>
      simp only [getElem?_map, found, Option.map_some, ends_bind, ensure, ends_require, ends_modify]
      refine ⟨fun _ => ?_, fun misaligned aligned => misaligned (aligned current.1)⟩
      obtain ⟨list, members⟩ := pushDependencies_eq (before.dependencies current.1) set
        (order.map Prod.fst) (order.tail.map Prod.fst) same
      obtain ⟨bound, _⟩ := List.getElem?_eq_some_iff.mp found
      rw [show (pushDependencies (before.objects current.1).dependencies set
        (order.map Prod.fst)).2 = (advance before.dependencies order current).map Prod.fst from
        list.trans (by simp [advance, comp_def])]
      refine ih (scan.step found) ?_ ?_ (by omega) ?_
      · intro obj
        rw [scan.tail_advance, map_append, map_map, comp_def]
        simp only [map_id']
        exact members obj
      · rw [advance, length_append]
        omega
      · split
        · exact ⟨_, rfl⟩
        · exact ⟨align, rfl⟩

theorem ends_buildLinkBfs_or [Fintype α] (ld : Loader α) (s : State α) (root : α) :
    Ends (buildLinkBfs ld root) s
      (fun linkBfs after => (∃ order : List (α × Nat), linkBfs = order.map Prod.fst ∧
          Scan s.dependencies root order.length order) ∧
        ∃ align, after = { s with tlsMaxAlignment := align })
      (fun _ _ => ¬s.Aligned) := by
  refine ends_buildLinkBfsLoop ld (Scan.start s.dependencies root) ?_
    (Nat.zero_le _) (Nat.le_of_eq (Nat.zero_add _).symm) ⟨s.tlsMaxAlignment, rfl⟩
  intro obj
  simp

theorem ends_buildLinkBfs [Fintype α] (ld : Loader α) {s : State α}
    (aligned : s.Aligned) (root : α) :
    Ends (buildLinkBfs ld root) s
      (fun linkBfs after => (∃ order : List (α × Nat), linkBfs = order.map Prod.fst ∧
          Scan s.dependencies root order.length order) ∧
        ∃ align, after = { s with tlsMaxAlignment := align }) Never :=
  (ends_buildLinkBfs_or ld s root).mono (fun _ _ built => built)
    (fun _ _ misaligned => absurd aligned misaligned)

end Scan

def SameAs {β γ : Type} (view : SharedObject α → β) (rest : State α → γ)
    (before after : State α) : Prop :=
  rest after = rest before ∧ ∀ obj, view (after.objects obj) = view (before.objects obj)

variable {β γ : Type}

theorem SameAs.refl (view : SharedObject α → β) (rest : State α → γ)
    (s : State α) : SameAs view rest s s :=
  ⟨rfl, fun _ => rfl⟩

abbrev SameLink (linkRts : Nat) : State α → State α → Prop :=
  SameAs (fun so => (so.needsRelocation linkRts, so.wasLinked)) State.relocated

variable [DecidableEq α] {linkRts : Nat} {before s : State α}

theorem State.update_self (obj : α) (change : SharedObject α → SharedObject α) :
    (s.update obj change).objects obj = change (s.objects obj) :=
  Function.update_self ..

theorem State.update_of_ne {obj other : α} (apart : other ≠ obj)
    (change : SharedObject α → SharedObject α) :
    (s.update obj change).objects other = s.objects other :=
  Function.update_of_ne apart ..

variable {view : SharedObject α → β} {rest : State α → γ}

theorem SameAs.update {after next : State α} (same : SameAs view rest before after) (obj : α)
    (so : SharedObject α)
    (changed : next.objects = update after.objects obj so)
    (viewed : view so = view (after.objects obj)) (kept : rest next = rest after) :
    SameAs view rest before next := by
  refine ⟨kept.trans same.1, ?_⟩
  intro other
  rw [changed]
  by_cases this : other = obj
  · subst this
    rw [update_self, viewed]
    exact same.2 other
  · rw [update_of_ne this]
    exact same.2 other

theorem SameAs.updateObject (same : SameAs view rest before s) (obj : α)
    (change : SharedObject α → SharedObject α)
    (viewed : view (change (s.objects obj)) = view (s.objects obj))
    (kept : rest (s.update obj change) = rest s) :
    SameAs view rest before (s.update obj change) :=
  same.update obj _ rfl viewed kept

section TlsMaps

variable (views : ∀ so model index offset,
    view { so with tlsModel := model, tlsIndex := index, tlsOffset := offset } = view so)
  (rests : ∀ s objects map, rest { s with objects, runtimeTlsMap := map } = rest s)

include views rests

theorem allocateIndex_same (obj : α) (same : SameAs view rest before s) :
    Ends (allocateIndex obj) s (fun _ after => SameAs view rest before after)
      (fun _ _ => True) := by
  exact same.update obj _ rfl (views _ _ _ _) (rests s _ _)

section

variable (tlsAboveTp : Bool) (obj : α) (same : SameAs view rest before s)

include tlsAboveTp obj same

theorem placeInitial_same :
    Ends (placeInitial tlsAboveTp obj) s (fun _ after => SameAs view rest before after)
      (fun _ _ => True) := by
  cases tlsAboveTp
  · exact same.update obj _ rfl (views _ _ _ _) (rests s _ _)
  · exact same.update obj _ rfl (views _ _ _ _) (rests s _ _)

theorem mapInitialObject_same : Ends (mapInitialObject tlsAboveTp obj) s
      (fun _ after => SameAs view rest before after) (fun _ _ => True) := by
  simp only [mapInitialObject, ends_bind, ensure, ends_require, ends_ite, implies_true, and_true]
  intro _
  constructor
  · intro _
    refine (allocateIndex_same views rests obj same).imp ?_
    intro _ after same _
    exact placeInitial_same views rests tlsAboveTp obj same
  · intro _
    exact same

theorem mapLaterObject_same : Ends (mapLaterObject tlsAboveTp obj) s
      (fun _ after => SameAs view rest before after) (fun _ _ => True) := by
  simp only [mapLaterObject, ends_bind, ends_ite]
  constructor
  · intro _
    refine (allocateIndex_same views rests obj same).imp ?_
    intro _ after same
    constructor
    · intro _
      refine (placeInitial_same views rests tlsAboveTp obj same).imp ?_
      intro _ after same
      simp only [ends_throw, implies_true, true_and]
      intro _
      exact same
    · intro _
      exact same.update obj _ rfl (views _ _ _ _) (rests after _ _)
  · intro _
    exact same

end

theorem buildTlsMaps_same (ld : Loader α) (tlsAboveTp : Bool) (linkBfs : List α)
    (same : SameAs view rest before s) :
    Ends (buildTlsMaps ld tlsAboveTp linkBfs) s
      (fun _ after => SameAs view rest before after) (fun _ _ => True) := by
  simp only [buildTlsMaps, ends_ite, ends_bind, ensure, ends_require, implies_true, and_true]
  constructor
  · intro _ _ _
    cases linkBfs.head? with
    | none => trivial
    | some front =>
      simp only [ends_bind, ends_require, implies_true, and_true]
      intro _
      refine ends_forM (fun _ after => SameAs view rest before after) linkBfs ?_ same ?_
      · intro _ obj _ after _ same
        exact mapInitialObject_same views rests tlsAboveTp obj same
      · intro after same
        exact ⟨(rests after _ _).trans same.1, same.2⟩
  · intro _
    refine ends_forM (fun _ after => SameAs view rest before after) linkBfs ?_
      same (fun after same => same)
    intro _ obj _ after _ same
    exact mapLaterObject_same views rests tlsAboveTp obj same

end TlsMaps

theorem promoteObject_same (views : ∀ so rts, view { so with globalRts := rts } = view so)
    (rests : ∀ s objects scopes, rest { s with objects, scopes } = rest s)
    (ld : Loader α) (obj : α) (same : SameAs view rest before s) :
    Ends (promoteObject ld obj) s (fun _ after => SameAs view rest before after) Never := by
  simp only [promoteObject, ends_bind, ends_ite]
  constructor
  · intro _
    exact same.update obj _ rfl (views _ _) (rests s _ _)
  · intro _
    exact ⟨(rests s _ _).trans same.1, same.2⟩

omit [DecidableEq α] in
theorem relocateObject_same (rests : ∀ s relocated, rest { s with relocated } = rest s)
    (ld : Loader α) (obj : α) (same : SameAs view rest before s) :
    Ends (relocateObject ld obj) s (fun _ after => SameAs view rest before after)
      (fun _ _ => True) := by
  rw [relocateObject, ends_bind, ends_getObject, ends_ite]
  constructor
  · intro _
    rw [ends_bind, ensure, ends_require]
    exact ⟨fun _ => ⟨(rests s _).trans same.1, same.2⟩, fun _ => trivial⟩
  · intro _
    exact same

omit [DecidableEq α] in
theorem ends_relocateObjects (ld : Loader α) (linkBfs : List α) {s : State α}
    (fresh : ∀ obj, (s.objects obj).needsRelocation ld.linkRts →
      (s.objects obj).wasLinked = false) :
    Ends (linkBfs.forM (relocateObject ld)) s
      (fun _ after => after.objects = s.objects ∧ after.relocated = s.relocated ++
        linkBfs.filter fun obj => (s.objects obj).needsRelocation ld.linkRts)
      Never := by
  refine ends_forM (fun passed after => after.objects = s.objects ∧ after.relocated = s.relocated ++
      passed.filter fun obj => (s.objects obj).needsRelocation ld.linkRts) linkBfs
    ?_ ⟨rfl, by simp⟩ (fun after holds => holds)
  intro passed obj _ after _ holds
  obtain ⟨objects, relocated⟩ := holds
  rw [relocateObject, ends_bind, ends_getObject, objects, ends_ite]
  constructor
  · intro needs
    rw [ends_bind, ends_ensure (by rw [fresh obj needs]; decide)]
    simp only [processStaticRelocations, ends_modify]
    refine ⟨objects, ?_⟩
    rw [relocated, filter_append, filter_singleton, needs, append_assoc, cond_true]
  intro done
  rw [ends_pure]
  refine ⟨objects, ?_⟩
  rw [relocated, filter_append, filter_singleton, Bool.eq_false_of_not_eq_true done,
    cond_false, append_nil]

theorem ends_markLinked (linkBfs : List α) (s : State α) : Ends (linkBfs.forM fun obj =>
        modifyObject obj fun so => { so with wasLinked := true }) s
      (fun _ after => after.relocated = s.relocated) Never := by
  refine ends_forM (fun _ after => after.relocated = s.relocated) linkBfs ?_ rfl
    (fun _ holds => holds)
  intro _ obj _ after _ same
  exact same

/-- Every object that the root reaches is listed and, if this link loads it, relocated exactly once.
-/
def LinksOnce [Fintype α] (ld : Loader α) (tlsAboveTp : Bool) (root : α) (s : State α) : Prop :=
  ∃ linkBfs built, buildLinkBfs ld root s = .ok linkBfs built ∧
    linkBfs.Nodup ∧ (∀ obj, obj ∈ linkBfs ↔ Reaches s.dependencies root obj) ∧
    Ordered s.dependencies root linkBfs ∧
    ∀ mapped, buildTlsMaps ld tlsAboveTp linkBfs built = .ok () mapped →
      ∃ after, linkObjects ld tlsAboveTp root s = .ok linkBfs after ∧
        ∀ obj, Reaches s.dependencies root obj →
          (s.objects obj).objectRts = ld.linkRts → (s.objects obj).dynamic →
          ¬ (s.objects obj).skipRelocation →
          after.relocated.count obj = s.relocated.count obj + 1

def State.Fresh (s : State α) (ld : Loader α) : Prop :=
  ∀ obj, ld.linkRts ≤ (s.objects obj).objectRts → (s.objects obj).wasLinked = false

theorem linkObjects_relocates [Fintype α] (ld : Loader α) (tlsAboveTp : Bool) (root : α)
    {s built mapped : State α} {linkBfs : List α} (fresh : s.Fresh ld)
    (builds : buildLinkBfs ld root s = .ok linkBfs built)
    (maps : buildTlsMaps ld tlsAboveTp linkBfs built = .ok () mapped)
    (unchanged : ∃ align, built = { s with tlsMaxAlignment := align }) :
    ∃ after, linkObjects ld tlsAboveTp root s = .ok linkBfs after ∧
      after.relocated = s.relocated ++ linkBfs.filter fun obj =>
        (s.objects obj).needsRelocation ld.linkRts := by
  obtain ⟨align, rfl⟩ := unchanged
  have kept : SameLink ld.linkRts s { s with tlsMaxAlignment := align } :=
    ⟨rfl, fun _ => rfl⟩
  have same : SameLink ld.linkRts s mapped :=
    (ends_of_run maps).mp (buildTlsMaps_same (fun _ _ _ _ => rfl) (fun _ _ _ => rfl) ld
      tlsAboveTp linkBfs kept)
  have ends : Ends (linkObjects ld tlsAboveTp root) s
      (fun list after => list = linkBfs ∧ after.relocated = s.relocated ++
        linkBfs.filter fun obj => (s.objects obj).needsRelocation ld.linkRts)
      Never := by
    rw [linkObjects, ends_bind, ends_of_run builds, ends_bind, ends_of_run maps, ends_bind]
    refine ends_forM (fun _ after => SameLink ld.linkRts s after) linkBfs ?_ same ?_
    · intro _ obj _ after _ same
      exact promoteObject_same (fun _ _ => rfl) (fun _ _ _ => rfl) ld obj same
    intro promoted same
    have unlinked : ∀ obj, (promoted.objects obj).needsRelocation ld.linkRts →
        (promoted.objects obj).wasLinked = false := by
      intro obj needs
      obtain ⟨sameNeeds, sameLinked⟩ := Prod.mk.inj (same.2 obj)
      rw [sameNeeds] at needs
      rw [sameLinked]
      apply fresh obj
      exact Nat.le_of_not_lt (of_decide_eq_true needs).1
    rw [ends_bind]
    refine (ends_relocateObjects ld linkBfs unlinked).imp ?_
    intro _ relocated holds
    rw [ends_bind]
    refine (ends_markLinked linkBfs relocated).imp ?_
    intro _ after kept
    refine ⟨rfl, ?_⟩
    rw [kept, holds.2, same.1]
    congr 1
    apply filter_congr
    intro obj _
    exact (Prod.mk.inj (same.2 obj)).1
  obtain ⟨_, after, ran, rfl, relocated⟩ := ends.run
  exact ⟨after, ran, relocated⟩

/-- The list is right, and every object is relocated once, exactly if the root does not
depend on itself. -/
theorem links_once_iff [Fintype α] (ld : Loader α) (tlsAboveTp : Bool) (root : α)
    (s : State α) (aligned : s.Aligned) (fresh : s.Fresh ld) :
    LinksOnce ld tlsAboveTp root s ↔ ¬ Relation.TransGen (Edge s.dependencies) root root := by
  obtain ⟨linkBfs, built, builds, ⟨order, rfl, scan⟩, unchanged⟩ :=
    (ends_buildLinkBfs ld aligned root).run
  constructor
  · rintro ⟨list, _, ran, distinct, _⟩
    rw [builds] at ran
    injection ran with same
    rw [← same] at distinct
    exact (scan.nodup_iff le_rfl).mp distinct
  intro acyclic
  have distinct := (scan.nodup_iff le_rfl).mpr acyclic
  refine ⟨_, built, builds, distinct, scan.mem_iff le_rfl, scan.ordered le_rfl acyclic, ?_⟩
  intro mapped maps
  obtain ⟨after, links, relocated⟩ :=
    linkObjects_relocates ld tlsAboveTp root fresh builds maps unchanged
  refine ⟨after, links, ?_⟩
  intro obj reaches loaded dynamic processed
  have needs : (s.objects obj).needsRelocation ld.linkRts :=
    decide_eq_true ⟨Nat.not_lt_of_ge loaded.symm.le, dynamic, processed⟩
  have kept : (filter (fun obj => (s.objects obj).needsRelocation ld.linkRts)
      (order.map Prod.fst)).count obj = (order.map Prod.fst).count obj :=
    count_filter needs
  rw [relocated, count_append, kept,
    count_eq_one_of_mem distinct ((scan.mem_iff le_rfl obj).mpr reaches)]

def loadedLibraries (dependencies : α → List α) : State α where
  objects obj :=
    { dependencies := dependencies obj, isMainObject := false, objectRts := 2, dynamic := true }
  scopes _ := { isGlobal := false }

def libraryLoader : Loader α := ⟨none, 0, false, 2⟩

def sharedDependency : Fin 4 → List (Fin 4)
  | 0 => [1, 2]
  | 1 => [3]
  | 2 => [3, 3]
  | 3 => []

theorem links_once_sharedDependency :
    LinksOnce libraryLoader false 0 (loadedLibraries sharedDependency) := by
  refine (links_once_iff libraryLoader false 0 (loadedLibraries sharedDependency) ?_ ?_).mpr ?_
  · intro obj
    change (0 : BitVec 64) &&& (0 - 1) = 0
    decide
  · intro obj _
    rfl
  intro cycle
  have increases : ∀ obj dep : Fin 4,
      Edge (loadedLibraries sharedDependency).dependencies obj dep → obj < dep := by
    decide
  have above : ∀ obj, Relation.TransGen
      (Edge (loadedLibraries sharedDependency).dependencies) 0 obj → 0 < obj := by
    intro obj reaches
    induction reaches with
    | single edge => exact increases 0 _ edge
    | tail _ edge ih => exact ih.trans (increases _ _ edge)
  exact absurd (above 0 cycle) (by decide)

def mutualDependency : Fin 2 → List (Fin 2)
  | 0 => [1]
  | 1 => [0]

/-- The relocations of a library that is opened are processed twice if it is needed by a
library that it needs. -/
theorem links_root_twice :
    (∃ after, linkObjects libraryLoader false 0 (loadedLibraries mutualDependency) =
        .ok [0, 1, 0] after ∧ after.relocated = [0, 1, 0]) ∧
      ¬ LinksOnce libraryLoader false 0 (loadedLibraries mutualDependency) := by
  constructor
  · exact ⟨_, rfl, rfl⟩
  rintro ⟨linkBfs, _, builds, distinct, _⟩
  have list : linkBfs = [0, 1, 0] := by
    injection builds with same
    exact same.symm
  rw [list] at distinct
  exact absurd distinct (by decide)

end Mlibc.Loader
