import Mlibc.RepositoryDiscovery
import Mlibc.TransitionSystem

/-! # Opening objects globally -/

namespace Mlibc.ObjectRepository

open BreadthFirst Function

variable {α : Type}

def Global (repository : ObjectRepository α) (obj : α) : Prop :=
  obj ∈ (repository.linker.scopes globalScope).objects ∧
    (repository.linker.objects obj).globalRts ≠ 0

def ClosureGlobal (repository : ObjectRepository α) (obj : α) : Prop :=
  ∀ dep, Reaches repository.dependencies obj dep → repository.Global dep

structure Settled (repository : ObjectRepository α) : Prop extends WellFormed repository where
  discovered : ∀ {obj}, obj ∈ repository.dependencyQueue → repository.Discovered obj

theorem WellFormed.loaded_of_reaches {repo : ObjectRepository α}
    (wellFormed : WellFormed repo) {obj dep : α}
    (loaded : obj ∈ repo.loadedObjects)
    (reaches : Reaches repo.dependencies obj dep) :
    dep ∈ repo.loadedObjects := by
  induction reaches with
  | refl => exact loaded
  | tail _ edge _ => exact wellFormed.queued_loaded (wellFormed.dependency_queued edge)

theorem reaches_congr {first second : α → List α}
    (same : ∀ obj dep, dep ∈ first obj ↔ dep ∈ second obj)
    (obj dep : α) :
    Reaches first obj dep ↔ Reaches second obj dep := by
  have edges : Edge first = Edge second := by
    ext obj dep
    exact same obj dep
  rw [Reaches, Reaches, edges]

variable [DecidableEq α] {env : LinkerEnvironment α}

/-! ### Linking -/

section Linking

variable {repo : ObjectRepository α} {linker : Loader.State α} {ld : Loader α} {linkBfs : List α}

theorem WellFormed.promoted (wellFormed : WellFormed repo)
    (promoted : Loader.Promoted ld linkBfs repo.linker linker) :
    WellFormed { repo with linker } where
  __ := wellFormed
  global_isGlobal := (promoted.isGlobal _).trans wellFormed.global_isGlobal
  other_isGlobal scope apart :=
    (promoted.isGlobal scope).trans (wellFormed.other_isGlobal scope apart)
  dependency_queued := by
    intro obj dep isDependency
    change dep ∈ linker.dependencies obj at isDependency
    rw [promoted.dependencies] at isDependency
    exact wellFormed.dependency_queued isDependency
  main_queued := by
    intro obj isMain
    rw [promoted.isMainObject] at isMain
    exact wellFormed.main_queued isMain
  executable_main isExecutable :=
    (promoted.isMainObject _).trans (wellFormed.executable_main isExecutable)

theorem global_of_promoted (wellFormed : WellFormed repo)
    (promoted : Loader.Promoted ld linkBfs repo.linker linker)
    (inGlobal : ld.loadScope = globalScope) (pos : 0 < ld.linkRts) {obj : α}
    (linked : obj ∈ linkBfs) : Global { repo with linker } obj := by
  have members := promoted.members obj
  have globalRts := promoted.globalRts obj
  rw [inGlobal] at members globalRts
  refine ⟨members.mpr (.inr linked), ?_⟩
  rw [globalRts]
  split_ifs with wasLocal
  · exact Nat.pos_iff_ne_zero.mp pos
  · exact fun isLocal => wasLocal ⟨wellFormed.global_isGlobal, linked, isLocal⟩

theorem Global.promoted {obj : α} (isGlobal : repo.Global obj)
    (promoted : Loader.Promoted ld linkBfs repo.linker linker)
    (pos : 0 < ld.linkRts) : Global { repo with linker } obj := by
  constructor
  · by_cases inGlobal : globalScope = ld.loadScope
    · rw [inGlobal, promoted.members, ← inGlobal]
      exact .inl isGlobal.1
    · rw [promoted.other _ inGlobal]
      exact isGlobal.1
  · rw [promoted.globalRts]
    split_ifs
    · exact Nat.pos_iff_ne_zero.mp pos
    · exact isGlobal.2

theorem ends_linkAndInit [Fintype α] (ld : Loader α) (obj : α) (repo : ObjectRepository α) :
    Ends (linkAndInit env ld obj) repo
      (fun _ after => ∃ linker linkBfs, after = { repo with linker } ∧
        (∀ other, other ∈ linkBfs ↔ Reaches repo.dependencies obj other) ∧
        Loader.Promoted ld linkBfs repo.linker linker) (fun _ _ => True) := by
  simp only [linkAndInit, ends_bind, ends_runLoader]
  apply (Loader.linkObjects_promotes ld env.tlsAboveTp obj repo.linker).imp
  rintro linkBfs linked ⟨members, promoted⟩
  apply (Loader.initObjects_same ld linkBfs (Loader.SameAs.refl _ _ linked)).imp
  intro _ started same
  exact ⟨started, linkBfs, rfl, members, promoted.congr same⟩

end Linking

/-! ### Loading an object with its dependencies -/

structure Loads (environment : LinkerEnvironment α) (root : α) (rts : Nat)
    (before middle after : ObjectRepository α) (linkBfs : List α) : Prop where
  settled : Settled middle
  extended : Extends environment root before middle
  after_eq : after = { middle with linker := after.linker }
  members : ∀ obj, obj ∈ linkBfs ↔ Reaches middle.dependencies root obj
  promoted : Loader.Promoted ⟨none, (before.data root).localScope, false, rts⟩ linkBfs
    middle.linker after.linker

section Loading

variable {root : α} {rts : Nat} {files : FileSystem}
  {before middle after : ObjectRepository α} {linkBfs : List α}

theorem ends_loadDependencies [Fintype α] (settled : Settled before)
    (loaded : root ∈ before.loadedObjects) :
    Ends (loadDependencies env files root rts) before
      (fun _ after => ∃ middle linkBfs, Loads env root rts before middle after linkBfs)
      (fun _ _ => True) := by
  simp only [loadDependencies, discoverDependenciesFromLoadedObject, ends_bind, ends_get]
  apply (ends_discoverDependencies (Extends.refl env root before) (fun _ => .inl rfl)
    settled.toWellFormed loaded _ _).imp_any
  rintro _ started ⟨wellFormedStarted, extendedStarted⟩
  apply (ends_discoverQueue _ wellFormedStarted extendedStarted
    (fun old isBelow => absurd isBelow (Nat.not_lt_zero old))).imp_any
  rintro _ middle ⟨wellFormed, extended, discovered⟩
  have sameScope := localScope_eq_of_identity (extended.identity loaded)
  rw [sameScope]
  apply (ends_linkAndInit _ root middle).imp
  rintro _ _ ⟨linker, linkBfs, rfl, members, promoted⟩
  exact ⟨middle, linkBfs, ⟨wellFormed, fun queued => discovered _ queued⟩, extended, rfl,
    members, promoted⟩

section

variable (loads : Loads env root rts before middle after linkBfs)

include loads

theorem Loads.after_settled : Settled after := by
  rw [loads.after_eq]
  exact ⟨loads.settled.toWellFormed.promoted loads.promoted, loads.settled.discovered⟩

theorem Loads.dependencies : after.dependencies = middle.dependencies :=
  loads.promoted.dependencies

theorem Loads.closureGlobal (inGlobal : (before.data root).localScope = globalScope)
    (pos : 0 < rts) :
    after.ClosureGlobal root := by
  intro dep reaches
  rw [loads.dependencies] at reaches
  exact global_of_promoted loads.settled.toWellFormed loads.promoted inGlobal pos
    ((loads.members dep).mpr reaches)

end

omit [DecidableEq α] in
theorem Settled.closed (settled : Settled before) (loaded : root ∈ before.loadedObjects)
    (unambiguous : Unambiguous env before)
    (notGlobal : (before.data root).localScope ≠ globalScope) :
    Closed env before root where
  loaded := loaded
  notMain := by
    rw [← Bool.not_eq_true]
    exact fun isMain => notGlobal (settled.main_queued isMain).2
  unambiguous := unambiguous
  mainDiscovered obj isMain := settled.discovered (settled.main_queued isMain).1

variable (loads : Loads env root rts before middle after linkBfs) (settled : Settled before)

include loads settled

theorem Loads.closureGlobal_iff (closed : Closed env before root)
    (notGlobal : (before.data root).localScope ≠ globalScope) :
    after.ClosureGlobal root ↔ before.ClosureGlobal root := by
  obtain ⟨_, _, sameDependencies⟩ := loads.extended.kept closed
  unfold ClosureGlobal
  simp only [loads.dependencies, reaches_congr sameDependencies]
  refine forall₂_congr fun obj reaches => ?_
  have loaded := settled.toWellFormed.loaded_of_reaches closed.loaded reaches
  have globalRts := loads.promoted.globalRts obj
  rw [loads.settled.toWellFormed.other_isGlobal _ notGlobal, if_neg (by simp)] at globalRts
  unfold Global
  rw [loads.after_eq, loads.promoted.other _ (Ne.symm notGlobal), globalRts,
    loads.extended.scopes, loads.extended.globalRts loaded]

theorem Loads.executable (pos : 0 < rts)
    (closed : root ∈ before.dependencyQueue → (before.data root).localScope ≠ globalScope →
      Closed env before root) {executable : α}
    (isExecutable : before.executableSO = some executable)
    (closure : before.ClosureGlobal executable) : after.ClosureGlobal executable := by
  have queued {obj : α} (reaches : Reaches before.dependencies executable obj) :
      obj ∈ before.dependencyQueue := by
    cases reaches with
    | refl => exact (settled.main_queued (settled.executable_main isExecutable)).1
    | tail _ edge => exact settled.dependency_queued edge
  have split {obj : α} (reaches : Reaches after.dependencies executable obj) :
      Reaches before.dependencies executable obj ∨
        (before.data root).localScope = globalScope ∧ Reaches after.dependencies root obj := by
    rw [loads.dependencies] at reaches ⊢
    induction reaches with
    | refl => exact .inl .refl
    | @tail vertex next _ edge ih =>
      obtain reachesBefore | ⟨inGlobal, reachesRoot⟩ := ih
      · by_cases isRoot : vertex = root
        · subst isRoot
          by_cases inGlobal : (before.data vertex).localScope = globalScope
          · exact .inr ⟨inGlobal, .single edge⟩
          · obtain ⟨_, _, same⟩ := loads.extended.kept (closed (queued reachesBefore) inGlobal)
            exact .inl (.tail reachesBefore ((same vertex next).mp edge))
        have isQueued := queued reachesBefore
        have same := loads.extended.frozen (settled.queued_loaded isQueued) isRoot
          (settled.discovered isQueued)
        rw [Edge, same] at edge
        exact .inl (.tail reachesBefore edge)
      · exact .inr ⟨inGlobal, .tail reachesRoot edge⟩
  intro obj reaches
  obtain reachesBefore | ⟨inGlobal, reachesRoot⟩ := split reaches
  · have loaded := settled.queued_loaded (queued reachesBefore)
    apply Global.promoted _ loads.promoted pos
    unfold Global
    rw [loads.extended.scopes, loads.extended.globalRts loaded]
    exact closure obj reachesBefore
  · exact loads.closureGlobal inGlobal pos obj reachesRoot

end Loading

/-! ### `dlopen` -/

def localObject (environment : LinkerEnvironment α) (repository : ObjectRepository α)
    (file : PathText) : Option α :=
  (findLoadedObject environment repository (baseName file)).filter fun obj =>
    (repository.linker.objects obj).globalRts = 0

/-- What a `dlopen` needs to make everything global: what earlier calls left local is global
already. -/
def Promotable (environment : LinkerEnvironment α) (repository : ObjectRepository α)
    (call : OpenCall α) : Prop :=
  ∀ file, call.file = some file →
    match localObject environment repository file with
    | some obj => ∀ dep, Reaches repository.dependencies obj dep → dep ≠ obj → repository.Global dep
    | none => ∀ obj, requestedObject environment repository call.files file = some obj →
        (repository.data obj).localScope ≠ globalScope → repository.ClosureGlobal obj

/-- The executable is set, and everything that it depends on is global. -/
structure Running (repository : ObjectRepository α) : Prop extends Settled repository where
  executable : ∃ obj, repository.executableSO = some obj ∧ repository.ClosureGlobal obj

section Opening

variable {repo after : ObjectRepository α} {obj : α} {scope : Nat}
  {localScope : Option Nat} {createScope : Bool}

section Scopes

omit [DecidableEq α]

theorem WellFormed.withScope_global (wellFormed : WellFormed repo) :
    repo.withScope.linker.scopes globalScope = repo.linker.scopes globalScope :=
  update_of_ne (ne_of_lt wellFormed.scopeCount_pos) ..

theorem WellFormed.withScope (wellFormed : WellFormed repo) : WellFormed repo.withScope where
  __ := wellFormed
  global_isGlobal := by rw [wellFormed.withScope_global, wellFormed.global_isGlobal]
  other_isGlobal scope apart := by
    change (update repo.linker.scopes repo.scopeCount _ scope).isGlobal = false
    by_cases same : scope = repo.scopeCount
    · rw [same, update_self]
    · rw [update_of_ne same, wellFormed.other_isGlobal scope apart]
  scopeCount_pos := Nat.succ_pos _

theorem Running.withScope (running : Running repo) : Running repo.withScope := by
  obtain ⟨executable, isExecutable, closure⟩ := running.executable
  refine ⟨⟨running.toWellFormed.withScope, running.discovered⟩, executable, isExecutable, ?_⟩
  intro dep reaches
  unfold Global
  rw [running.toWellFormed.withScope_global]
  exact closure dep reaches

section

variable (obtained : Scoped localScope createScope repo scope after)

include obtained

theorem Running.scoped (running : Running repo) : Running after := by
  obtain rfl | rfl := obtained.after_eq
  · exact running.withScope
  · exact running

theorem Scoped.loadedObjects : after.loadedObjects = repo.loadedObjects := by
  obtain rfl | rfl := obtained.after_eq <;> rfl

theorem Scoped.unambiguous (unambiguous : Unambiguous env repo) : Unambiguous env after := by
  obtain rfl | rfl := obtained.after_eq <;> exact unambiguous

end

theorem Running.tick (running : Running repo) :
    Running { repo with rtsCounter := repo.rtsCounter + 1 } :=
  { running with rtsCounter_pos := Nat.succ_pos _ }

end Scopes

theorem Running.added (running : Running repo)
    (added : Added scope obj repo after) : Running after := by
  obtain ⟨executable, isExecutable, closure⟩ := running.executable
  have others {other : α} (loaded : other ∈ repo.loadedObjects) :
      after.linker.objects other = repo.linker.objects other ∧
        after.data other = repo.data other := by
    apply added.other
    rintro rfl
    exact added.1 loaded
  have edges {vertex next : α} (edge : next ∈ after.dependencies vertex) :
      next ∈ repo.dependencies vertex := by
    change next ∈ (after.linker.objects vertex).dependencies at edge
    by_cases same : vertex = obj
    · subst same
      rw [added.itself.1] at edge
      cases edge
    · rw [(added.other same).1] at edge
      exact edge
  have wellFormed := added.wellFormed running.toWellFormed
  have loadedExecutable : executable ∈ repo.loadedObjects :=
    running.toWellFormed.loaded_of_main (running.executable_main isExecutable)
  obtain ⟨_, so, data, _, _, _, _, _, _, rfl⟩ := added
  refine ⟨⟨wellFormed, ?_⟩, executable, isExecutable, ?_⟩
  · intro other queued
    unfold Discovered
    rw [(others (running.queued_loaded queued)).2]
    exact running.discovered queued
  intro dep reaches
  have weaker : ∀ vertex next, Edge (repo.withObject obj so data).dependencies vertex next →
      Edge repo.dependencies vertex next := fun _ _ => edges
  have reachesBefore : Reaches repo.dependencies executable dep :=
    Relation.ReflTransGen.mono weaker _ _ reaches
  have loaded := running.toWellFormed.loaded_of_reaches loadedExecutable reachesBefore
  obtain ⟨mem, isGlobal⟩ := closure dep reachesBefore
  refine ⟨mem, ?_⟩
  rw [(others loaded).1]
  exact isGlobal

theorem ends_loadDependencies_running [Fintype α] (running : Running repo) {rts : Nat}
    (pos : 0 < rts) (loaded : obj ∈ repo.loadedObjects)
    (closed : obj ∈ repo.dependencyQueue →
      (repo.data obj).localScope ≠ globalScope → Closed env repo obj)
    (files : FileSystem) :
    Ends (loadDependencies env files obj rts) repo (fun _ after => Running after ∧
        ((repo.data obj).localScope = globalScope → after.ClosureGlobal obj) ∧
        ((repo.data obj).localScope ≠ globalScope → Closed env repo obj →
          (after.ClosureGlobal obj ↔ repo.ClosureGlobal obj)))
      (fun _ _ => True) := by
  apply (ends_loadDependencies running.toSettled loaded).imp
  rintro _ after ⟨middle, linkBfs, loads⟩
  obtain ⟨executable, isExecutable, closure⟩ := running.executable
  refine ⟨⟨loads.after_settled, executable, ?_, ?_⟩, ?_, ?_⟩
  · rw [loads.after_eq]
    exact loads.extended.executableSO.trans isExecutable
  · exact loads.executable running.toSettled pos closed isExecutable closure
  · exact fun inGlobal => loads.closureGlobal inGlobal pos
  · exact fun notGlobal isClosed => loads.closureGlobal_iff running.toSettled isClosed notGlobal

theorem ends_openObject [Fintype α] (running : Running repo)
    (unambiguous : Unambiguous env repo) {rts : Nat} (pos : 0 < rts)
    (call : OpenCall α) (file : PathText) (executable : α) :
    Ends (openObject env call file executable rts) repo
      (fun result after => Running after ∧ (call.isGlobal = true →
        ∀ obj, result = .ok (some obj) → (after.ClosureGlobal obj ↔
          ∀ other, requestedObject env repo call.files file = some other →
            (repo.data other).localScope ≠ globalScope → repo.ClosureGlobal other)))
      (fun _ _ => True) := by
  simp only [openObject, ends_bind]
  apply (ends_requestObject file [] _ rts).imp
  intro result middle req
  cases result with
  | error error =>
    obtain ⟨scope, obtained⟩ := req
    refine ⟨running.scoped obtained, ?_⟩
    rintro _ obj ⟨⟩
  | ok obj =>
    simp only [ends_bind]
    cases found : requestedObject env repo call.files file with
    | some loaded =>
      rw [found] at req
      obtain ⟨rfl, unchanged⟩ := req
      have same : Running middle ∧ Unambiguous env middle ∧ (call.isGlobal = true → middle = repo) ∧
          middle.loadedObjects = repo.loadedObjects := by
        obtain rfl | ⟨scope, obtained⟩ := unchanged
        · exact ⟨running, unambiguous, fun _ => rfl, rfl⟩
        refine ⟨running.scoped obtained, obtained.unambiguous unambiguous, ?_,
          obtained.loadedObjects⟩
        intro isGlobal
        rw [isGlobal] at obtained
        exact obtained.2
      obtain ⟨runningMiddle, unambiguousMiddle, sameRepository, sameLoaded⟩ := same
      have isLoaded : obj ∈ middle.loadedObjects := by
        rw [sameLoaded]
        exact running.toWellFormed.requestedObject_loaded found
      have closed := runningMiddle.toSettled.closed isLoaded unambiguousMiddle
      apply (ends_loadDependencies_running runningMiddle pos isLoaded
        (fun _ => closed) call.files).imp_any
      rintro _ after ⟨runningAfter, whenGlobal, whenLocal⟩
      refine ⟨runningAfter, ?_⟩
      rintro isGlobal _ ⟨rfl⟩
      obtain rfl := sameRepository isGlobal
      by_cases inGlobal : (middle.data obj).localScope = globalScope
      · apply iff_of_true (whenGlobal inGlobal)
        rintro other ⟨rfl⟩ notGlobal
        exact absurd inGlobal notGlobal
      rw [whenLocal inGlobal (closed inGlobal)]
      constructor
      · rintro closure other ⟨rfl⟩ _
        exact closure
      · exact fun all => all obj rfl inGlobal
    | none =>
      rw [found] at req
      obtain ⟨scope, scopedRepository, obtained, added⟩ := req
      have runningAdded := (running.scoped obtained).added added
      have loadedAdded := (added.mem_loadedObjects obj).mpr (.inr rfl)
      have notQueued : obj ∉ middle.dependencyQueue := by
        rw [added.dependencyQueue]
        exact fun queued => added.1 ((running.scoped obtained).queued_loaded queued)
      apply (ends_loadDependencies_running runningAdded pos loadedAdded
        (fun queued => absurd queued notQueued) call.files).imp_any
      rintro _ after ⟨runningAfter, whenGlobal, _⟩
      refine ⟨runningAfter, ?_⟩
      rintro isGlobal _ ⟨rfl⟩
      rw [isGlobal] at obtained
      have inGlobal : (middle.data obj).localScope = globalScope :=
        added.itself.2.2.2.trans (Option.some.inj obtained.1).symm
      apply iff_of_true (whenGlobal inGlobal)
      rintro other ⟨⟩

end Opening

end Mlibc.ObjectRepository
