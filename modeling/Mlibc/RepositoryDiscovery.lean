import Mathlib.Data.List.Find
import Mlibc.RepositoryRequests

/-! # Discovering dependencies -/

namespace Mlibc.ObjectRepository

open Function List

variable {α : Type} [DecidableEq α] {env : LinkerEnvironment α}

/-- Every library that a loaded object needs is found as one of its dependencies. -/
def Unambiguous (environment : LinkerEnvironment α) (repository : ObjectRepository α) : Prop :=
  ∀ obj ∈ repository.loadedObjects, ∀ name ∈ (repository.data obj).needed,
    ∃ dep ∈ repository.dependencies obj,
      findLoadedObject environment repository name = some dep

/-- The dependencies of the object are loaded, in its scope, and discovered. -/
structure Closed (environment : LinkerEnvironment α) (repository : ObjectRepository α) (root : α) :
    Prop where
  loaded : root ∈ repository.loadedObjects
  notMain : (repository.linker.objects root).isMainObject = false
  unambiguous : Unambiguous environment repository
  mainDiscovered : ∀ obj, (repository.linker.objects obj).isMainObject = true →
    repository.Discovered obj

/-- What loading keeps of the objects that were there before. -/
structure Extends (environment : LinkerEnvironment α) (root : α)
    (before after : ObjectRepository α) : Prop where
  scopes : after.linker.scopes = before.linker.scopes
  scopeCount : after.scopeCount = before.scopeCount
  rtsCounter : after.rtsCounter = before.rtsCounter
  executableSO : after.executableSO = before.executableSO
  loaded : ∀ {obj}, obj ∈ before.loadedObjects → obj ∈ after.loadedObjects
  queue : before.dependencyQueue <+: after.dependencyQueue
  identity : ∀ {obj}, obj ∈ before.loadedObjects →
    after.identity obj = before.identity obj
  discovered : ∀ {obj}, obj ∈ before.loadedObjects → before.Discovered obj →
    after.Discovered obj
  globalRts : ∀ {obj}, obj ∈ before.loadedObjects →
    (after.linker.objects obj).globalRts = (before.linker.objects obj).globalRts
  isMainObject : ∀ {obj}, obj ∈ before.loadedObjects →
    (after.linker.objects obj).isMainObject = (before.linker.objects obj).isMainObject
  frozen : ∀ {obj}, obj ∈ before.loadedObjects → obj ≠ root →
    before.Discovered obj → after.dependencies obj = before.dependencies obj
  kept : Closed environment before root → after.loadedObjects = before.loadedObjects ∧
    after.nameMap = before.nameMap ∧
    ∀ obj dep, dep ∈ after.dependencies obj ↔
      dep ∈ before.dependencies obj

omit [DecidableEq α] in
theorem Extends.refl (env : LinkerEnvironment α) (root : α)
    (repo : ObjectRepository α) : Extends env root repo repo where
  scopes := rfl
  scopeCount := rfl
  rtsCounter := rfl
  executableSO := rfl
  loaded := id
  queue := prefix_refl _
  identity _ := rfl
  discovered _ := id
  globalRts _ := rfl
  isMainObject _ := rfl
  frozen _ _ _ := rfl
  kept _ := ⟨rfl, rfl, fun _ _ => .rfl⟩

section Added

variable {root obj : α} {scope : Nat} {start before after : ObjectRepository α}

theorem Extends.added (extended : Extends env root start before)
    (added : Added scope obj before after) (notClosed : ¬Closed env start root) :
    Extends env root start after := by
  have others : ∀ {other}, other ∈ start.loadedObjects →
      after.linker.objects other = before.linker.objects other ∧
        after.data other = before.data other := by
    intro other loaded
    apply added.other
    rintro rfl
    exact added.1 (extended.loaded loaded)
  have loaded := added.mem_loadedObjects
  obtain ⟨fresh, so, data, _, _, _, _, _, _, rfl⟩ := added
  refine
    { extended with
      loaded := fun old => (loaded _).mpr (.inl (extended.loaded old))
      identity := ?_
      discovered := ?_
      globalRts := ?_
      isMainObject := ?_
      frozen := ?_
      kept := fun closed => absurd closed notClosed }
  · intro other old
    unfold ObjectRepository.identity
    rw [(others old).2]
    exact extended.identity old
  · intro other old discovered
    unfold Discovered
    rw [(others old).2]
    exact extended.discovered old discovered
  · intro other old
    rw [(others old).1]
    exact extended.globalRts old
  · intro other old
    rw [(others old).1]
    exact extended.isMainObject old
  · intro other old apart discovered
    unfold dependencies Loader.State.dependencies
    rw [(others old).1]
    exact extended.frozen old apart discovered

end Added

variable {start repo : ObjectRepository α} {root obj lib : α} {files : FileSystem}

section Discovery

variable (extended : Extends env root start repo)
include extended

omit [DecidableEq α] in
theorem Extends.findLoadedObject (closed : Closed env start root) (name : PathText) :
    findLoadedObject env repo name = findLoadedObject env start name := by
  obtain ⟨sameLoaded, sameNames, _⟩ := extended.kept closed
  have sameFind : repo.loadedObjects.find? (fun obj =>
      (repo.data obj).soName = some name) =
        start.loadedObjects.find? (fun obj => (start.data obj).soName = some name) := by
    rw [sameLoaded]
    apply find?_congr
    intro other loaded
    rw [soName_eq_of_identity (extended.identity loaded)]
  unfold ObjectRepository.findLoadedObject
  rw [sameNames, sameFind]

variable (free : obj ∈ start.loadedObjects → obj = root ∨ ¬start.Discovered obj)
include free

theorem Extends.withDependency
    (old : Closed env start root → lib ∈ start.dependencies obj) :
    Extends env root start (repo.withDependency obj lib) := by
  refine
    { extended with
      queue := extended.queue.trans (prefix_queue_withDependency repo obj lib)
      identity := ?_
      discovered := ?_
      globalRts := ?_
      isMainObject := ?_
      frozen := ?_
      kept := ?_ }
  · intro other loaded
    rw [identity_withDependency]
    exact extended.identity loaded
  · intro other loaded discovered
    rw [discovered_withDependency]
    exact extended.discovered loaded discovered
  · intro other loaded
    rw [objects_withDependency repo obj lib Loader.SharedObject.globalRts
      (fun _ _ => rfl)]
    exact extended.globalRts loaded
  · intro other loaded
    rw [objects_withDependency repo obj lib Loader.SharedObject.isMainObject
      (fun _ _ => rfl)]
    exact extended.isMainObject loaded
  · intro other loaded apart discovered
    rw [← extended.frozen loaded apart discovered]
    have notObject : other ≠ obj := by
      rintro rfl
      obtain isRoot | notDiscovered := free loaded
      · exact apart isRoot
      · exact notDiscovered discovered
    exact congrArg Loader.SharedObject.dependencies (update_of_ne notObject _ _)
  · intro closed
    obtain ⟨sameLoaded, sameNames, sameDependencies⟩ := extended.kept closed
    refine ⟨sameLoaded, sameNames, ?_⟩
    intro other dep
    rw [mem_dependencies_withDependency, sameDependencies]
    constructor
    · rintro (isOld | ⟨rfl, rfl⟩)
      · exact isOld
      · exact old closed
    · exact .inl

/-! ### Discovering the dependencies of one object -/

variable (wellFormed : WellFormed repo)
include wellFormed

theorem ends_addRequested {scope : Nat} {found : Option α} {result : Except LinkerError α}
    {middle : ObjectRepository α}
    (req : RequestEnds (some scope) false repo found result middle)
    (isLoaded : ∀ lib, found = some lib → lib ∈ repo.loadedObjects)
    (old : Closed env start root →
      ∃ lib ∈ start.dependencies obj, found = some lib) :
    Ends (addDependency obj result) middle
      (fun _ after => WellFormed after ∧ Extends env root start after)
      (fun _ _ => True) := by
  cases result with
  | error error => trivial
  | ok lib =>
    apply ends_addDependency
    cases found with
    | some loaded =>
      obtain ⟨rfl, unchanged | ⟨_, _, unchanged⟩⟩ := req
      all_goals
        subst unchanged
        refine ⟨wellFormed.withDependency (isLoaded _ rfl) obj, extended.withDependency free ?_⟩
        intro closed
        obtain ⟨_, isDependency, ⟨rfl⟩⟩ := old closed
        exact isDependency
    | none =>
      obtain ⟨_, _, ⟨_, rfl⟩, added⟩ := req
      have notClosed : ¬Closed env start root := by
        intro closed
        obtain ⟨_, _, ⟨⟩⟩ := old closed
      refine ⟨(added.wellFormed wellFormed).withDependency ?_ obj,
        (extended.added added notClosed).withDependency free ?_⟩
      · exact (added.mem_loadedObjects _).mpr (.inr rfl)
      · exact fun closed => absurd closed notClosed

theorem ends_discoverDependencies (loaded : obj ∈ repo.loadedObjects)
    (scope rts : Nat) :
    Ends (discoverDependencies env files obj scope rts) repo
      (fun _ after => WellFormed after ∧ Extends env root start after)
      (fun _ _ => True) := by
  have isOld : Closed env start root → obj ∈ start.loadedObjects := by
    intro closed
    rw [← (extended.kept closed).1]
    exact loaded
  have needed : ∀ {current : ObjectRepository α}, WellFormed current →
      Extends env root start current →
      Ends ((current.data obj).needed.forM fun name => do
        addDependency obj
          (← requestObjectWithName env files name [] obj (some scope) false rts)) current
        (fun _ after => WellFormed after ∧ Extends env root start after)
        (fun _ _ => True) := by
    intro current wellFormedCurrent extendedCurrent
    apply ends_forM (fun _ after => WellFormed after ∧ Extends env root start after)
    · rintro passed name rest next split ⟨wellFormedNext, extendedNext⟩
      rw [ends_bind]
      apply (ends_requestObjectWithName name [] obj rts).imp
      intro result middle req
      apply ends_addRequested extendedNext free wellFormedNext req
      · exact fun lib found => wellFormedNext.findLoadedObject_loaded found
      intro closed
      rw [extendedNext.findLoadedObject closed]
      apply closed.unambiguous obj (isOld closed)
      rw [← needed_eq_of_identity (extendedCurrent.identity (isOld closed)), split]
      exact mem_append_right _ mem_cons_self
    · exact ⟨wellFormedCurrent, extendedCurrent⟩
    · exact fun _ holds => holds
  apply ends_ite.mpr
  constructor
  · intro isMain
    have notClosed : ¬Closed env start root := by
      intro closed
      rw [extended.isMainObject (isOld closed)] at isMain
      obtain rfl | notDiscovered := free (isOld closed)
      · rw [closed.notMain] at isMain
        cases isMain
      · exact notDiscovered (closed.mainDiscovered obj isMain)
    rw [ends_bind]
    apply ends_forM (fun _ after => WellFormed after ∧ Extends env root start after)
    · rintro passed ⟨preload, behind⟩ rest next split ⟨wellFormedNext, extendedNext⟩
      rw [ends_bind]
      apply (ends_requestObject preload behind obj 1).imp
      intro result middle req
      apply ends_addRequested extendedNext free wellFormedNext req
      · exact fun lib found => wellFormedNext.requestedObject_loaded found
      · exact fun closed => absurd closed notClosed
    · exact ⟨wellFormed, extended⟩
    · rintro current ⟨wellFormedCurrent, extendedCurrent⟩
      exact needed wellFormedCurrent extendedCurrent
  · intro _
    exact needed wellFormed extended

end Discovery

/-! ### The loop over the queue -/

def withDiscovered (repository : ObjectRepository α) (obj : α) : ObjectRepository α :=
  { repository with
    data := Function.update repository.data obj
      { repository.data obj with dependenciesDiscovered := true } }

theorem data_withDiscovered {β : Type} (view : ObjectData → β)
    (views : ∀ data, view { data with dependenciesDiscovered := true } = view data) (other : α) :
    view ((repo.withDiscovered obj).data other) = view (repo.data other) := by
  change view (update repo.data obj
    { repo.data obj with dependenciesDiscovered := true } other) = _
  by_cases same : other = obj
  · rw [same, update_self, views]
  · rw [update_of_ne same]

theorem discovered_withDiscovered (other : α) :
    (repo.withDiscovered obj).Discovered other ↔
      repo.Discovered other ∨ other = obj := by
  unfold Discovered withDiscovered
  by_cases same : other = obj
  · subst same
    simp
  · simp [same]

theorem WellFormed.withDiscovered (wellFormed : WellFormed repo) (obj : α) :
    WellFormed (repo.withDiscovered obj) :=
  { wellFormed with
    visited_queued := by
      intro other visited
      rw [data_withDiscovered ObjectData.wasVisited (fun _ => rfl)] at visited
      exact wellFormed.visited_queued visited
    main_queued := by
      intro other isMain
      rw [data_withDiscovered ObjectData.localScope (fun _ => rfl)]
      exact wellFormed.main_queued isMain }

theorem Extends.withDiscovered (extended : Extends env root start repo)
    (obj : α) : Extends env root start (repo.withDiscovered obj) :=
  { extended with
    identity := by
      intro other loaded
      rw [← extended.identity loaded]
      exact data_withDiscovered (fun data => { data with
        wasVisited := false, dependenciesDiscovered := false }) (fun _ => rfl) other
    discovered := by
      intro other loaded discovered
      exact (discovered_withDiscovered other).mpr (.inl (extended.discovered loaded discovered)) }

theorem ends_discoverQueue (fuel : Nat) {index : Nat} (wellFormed : WellFormed repo)
    (extended : Extends env root start repo)
    (done : ∀ earlier < index, ∀ obj, repo.dependencyQueue[earlier]? = some obj →
      repo.Discovered obj) :
    Ends (discoverQueue env files fuel index) repo
      (fun _ after => WellFormed after ∧ Extends env root start after ∧
        ∀ obj ∈ after.dependencyQueue, after.Discovered obj) (fun _ _ => True) := by
  induction fuel generalizing index repo with
  | zero => trivial
  | succ fuel ih =>
    simp only [discoverQueue, ends_bind, ends_get]
    cases atIndex : repo.dependencyQueue[index]? with
    | none =>
      refine ⟨wellFormed, extended, ?_⟩
      intro obj queued
      obtain ⟨position, isThere⟩ := mem_iff_getElem?.mp queued
      apply done position _ obj isThere
      have past := getElem?_eq_none_iff.mp atIndex
      obtain ⟨inside, _⟩ := List.getElem?_eq_some_iff.mp isThere
      omega
    | some current =>
      have queued : current ∈ repo.dependencyQueue := mem_of_getElem? atIndex
      apply ends_ite.mpr
      constructor
      · intro notDiscovered
        have free : current ∈ start.loadedObjects → current = root ∨ ¬start.Discovered current := by
          intro loaded
          exact .inr fun discovered => notDiscovered (extended.discovered loaded discovered)
        have loaded := wellFormed.queued_loaded queued
        simp only [ends_bind, discoverDependenciesFromLoadedObject]
        apply ((ends_discoverDependencies extended free wellFormed loaded _ _).and
          (ends_discoverDependencies (Extends.refl env current repo)
            (fun _ => .inl rfl) wellFormed loaded _ _)).imp_any
        rintro _ after ⟨⟨wellFormedAfter, extendedAfter⟩, _, step⟩
        apply ih (wellFormedAfter.withDiscovered current)
          (extendedAfter.withDiscovered current)
        intro earlier before obj isThere
        rw [discovered_withDiscovered]
        obtain ⟨inside, _⟩ := List.getElem?_eq_some_iff.mp atIndex
        obtain ⟨more, isLonger⟩ := step.queue
        change after.dependencyQueue[earlier]? = some obj at isThere
        rw [← isLonger, getElem?_append_left (by omega)] at isThere
        by_cases last : earlier = index
        · subst last
          rw [atIndex] at isThere
          exact .inr (Option.some.inj isThere).symm
        · have wasQueued := mem_of_getElem? isThere
          exact .inl (step.discovered (wellFormed.queued_loaded wasQueued)
            (done earlier (by omega) obj isThere))
      · intro discovered
        apply ih wellFormed extended
        intro earlier before obj isThere
        by_cases last : earlier = index
        · subst last
          rw [atIndex] at isThere
          cases isThere
          exact of_not_not discovered
        · exact done earlier (by omega) obj isThere

end Mlibc.ObjectRepository
