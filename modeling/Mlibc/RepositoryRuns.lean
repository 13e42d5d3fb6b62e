import Mlibc.RepositoryOpen

/-! # Any sequence of `dlopen` calls -/

namespace Mlibc.ObjectRepository

open BreadthFirst Function Option

variable {α : Type} [DecidableEq α] {env : LinkerEnvironment α}

section Opening

variable {repo : ObjectRepository α} {obj : α}

theorem ends_promoteToGlobal (isGlobal : (repo.linker.scopes globalScope).isGlobal = true)
    (isLocal : (repo.linker.objects obj).globalRts = 0) (rts : Nat) :
    Ends (promoteToGlobal obj rts) repo (fun _ after => ∃ linker, after = { repo with linker } ∧
        Loader.Promoted ⟨none, globalScope, false, rts⟩ [obj] repo.linker linker)
      Never := by
  have kept : Loader.SameAs (fun so => (so.dependencies, so.isMainObject))
      Loader.State.scopes repo.linker
      (repo.linker.update obj fun so => { so with globalRts := rts }) :=
    (Loader.SameAs.refl _ _ repo.linker).updateObject obj _ rfl rfl
  refine ⟨_, rfl, ?_⟩
  apply (Loader.Promoted.refl ⟨none, globalScope, false, rts⟩ repo.linker).step obj rfl
  · exact fun other => congrArg Prod.fst (kept.2 other)
  · exact fun other => congrArg Prod.snd (kept.2 other)
  intro other
  by_cases same : other = obj
  · subst same
    rw [if_pos ⟨isGlobal, rfl, isLocal⟩, Loader.State.update_self]
  · rw [if_neg (fun both => same both.2.1), Loader.State.update_of_ne same]

section Promoted

variable {rts : Nat} {linker : Loader.State α} (running : Running repo) (pos : 0 < rts)
  (promoted : Loader.Promoted ⟨none, globalScope, false, rts⟩ [obj] repo.linker linker)

include running pos promoted

theorem Running.withPromoted : Running { repo with linker } := by
  obtain ⟨executable, isExecutable, closure⟩ := running.executable
  refine ⟨⟨running.toWellFormed.promoted promoted, running.discovered⟩, executable, isExecutable,
    ?_⟩
  intro dep reaches
  change Reaches linker.dependencies executable dep at reaches
  rw [promoted.dependencies] at reaches
  exact (closure dep reaches).promoted promoted pos

theorem Running.closureGlobal_promoted_iff : ClosureGlobal { repo with linker } obj ↔
      ∀ dep, Reaches repo.dependencies obj dep → dep ≠ obj → repo.Global dep := by
  have reaches (dep : α) : Reaches linker.dependencies obj dep ↔
      Reaches repo.dependencies obj dep := by
    rw [promoted.dependencies]
    rfl
  constructor
  · intro closure dep reachesBefore apart
    obtain ⟨mem, isGlobal⟩ := closure dep ((reaches dep).mpr reachesBefore)
    have notListed : dep ∉ [obj] := by simpa using apart
    constructor
    · exact ((promoted.members dep).mp mem).resolve_right notListed
    have same := promoted.globalRts dep
    rw [if_neg (fun both => notListed both.2.1)] at same
    rw [← same]
    exact isGlobal
  · intro others dep reachesAfter
    by_cases same : dep = obj
    · subst same
      exact global_of_promoted running.toWellFormed promoted rfl pos (List.mem_singleton.mpr rfl)
    · have isGlobal := others dep ((reaches dep).mp reachesAfter) same
      exact isGlobal.promoted promoted pos

end Promoted

theorem ends_dlapiOpen [Fintype α] (running : Running repo)
    (unambiguous : Unambiguous env repo) (call : OpenCall α) :
    Ends (dlapiOpen env call) repo
      (fun result after => Running after ∧ (call.isGlobal = true → call.noLoad = false →
        ∀ obj, result = .ok (some obj) → (after.ClosureGlobal obj ↔ Promotable env repo call)))
      (fun _ _ => True) := by
  obtain ⟨executable, isExecutable, closure⟩ := running.executable
  simp only [dlapiOpen, ends_bind, ends_get, isExecutable]
  cases isFile : call.file with
  | none =>
    refine ⟨running, ?_⟩
    rintro _ _ obj ⟨rfl⟩
    apply iff_of_true closure
    intro file isSome
    rw [isFile] at isSome
    cases isSome
  | some file =>
    have pos := running.rtsCounter_pos
    have promotable : Promotable env repo call ↔ _ :=
      ⟨fun all => all file isFile, fun holds _ same => by
        cases isFile.symm.trans same
        exact holds⟩
    have opened := ends_openObject running.tick unambiguous pos call file executable
    have sameFound : findLoadedObject env
        { repo with rtsCounter := repo.rtsCounter + 1 } (baseName file) =
          findLoadedObject env repo (baseName file) := rfl
    simp only [ends_bind, ends_get, ends_modify]
    rw [sameFound]
    cases found : findLoadedObject env repo (baseName file) with
    | none =>
      have noLocal : localObject env repo file = none := by
        rw [localObject, found]
        rfl
      rw [noLocal] at promotable
      apply ends_ite.mpr
      constructor
      · intro noLoad
        refine ⟨running.tick, ?_⟩
        rintro _ loads
        rw [noLoad] at loads
        cases loads
      intro _
      apply opened.imp
      rintro result after ⟨runningAfter, whenGlobal⟩
      refine ⟨runningAfter, ?_⟩
      intro isGlobal _ obj isObject
      rw [promotable]
      exact whenGlobal isGlobal obj isObject
    | some obj =>
      apply ends_ite.mpr
      constructor
      · rintro ⟨isLocal, isGlobal⟩
        have isPromoted : localObject env repo file = some obj := by
          rw [localObject, found]
          exact filter_some_pos (decide_eq_true isLocal)
        rw [isPromoted] at promotable
        rw [ends_bind]
        apply (ends_promoteToGlobal running.tick.global_isGlobal isLocal _).of_never.imp
        rintro _ _ ⟨linker, rfl, promoted⟩
        refine ⟨running.tick.withPromoted pos promoted, ?_⟩
        rintro _ _ _ ⟨rfl⟩
        rw [promotable]
        exact running.tick.closureGlobal_promoted_iff pos promoted
      intro notPromoted
      apply ends_ite.mpr
      constructor
      · intro noLoad
        refine ⟨running.tick, ?_⟩
        rintro _ loads
        rw [noLoad] at loads
        cases loads
      intro _
      apply opened.imp
      rintro result after ⟨runningAfter, whenGlobal⟩
      refine ⟨runningAfter, ?_⟩
      intro isGlobal _ other isOther
      have notLocal : ¬(repo.linker.objects obj).globalRts = 0 :=
        fun isLocal => notPromoted ⟨isLocal, isGlobal⟩
      have noLocal : localObject env repo file = none := by
        rw [localObject, found]
        exact filter_some_neg (by simpa using notLocal)
      rw [noLocal] at promotable
      rw [promotable]
      exact whenGlobal isGlobal other isOther

end Opening

/-! ### The start of the process -/

section Start

variable {repo : ObjectRepository α} {obj : α} {files : FileSystem}

omit [DecidableEq α] in
theorem wellFormed_new : WellFormed (new α) where
  global_isGlobal := by simp [new]
  other_isGlobal scope apart := by simpa [new] using apart
  scopeCount_pos := Nat.one_pos
  rtsCounter_pos := Nat.two_pos
  named_loaded named := by cases named
  queued_loaded queued := by cases queued
  dependency_queued isDependency := by cases isDependency
  visited_queued visited := by cases visited
  main_queued isMain := by cases isMain
  executable_main isExecutable := by cases isExecutable

theorem ends_injectObject (wellFormed : WellFormed repo) (isMainObject : Bool)
    (name path : PathText) (elf : ElfFile) :
    Ends (injectObject env isMainObject name path elf) repo (fun obj after => WellFormed after ∧
        (after.linker.objects obj).isMainObject = isMainObject ∧
        ∀ other, (repo.linker.objects other).isMainObject = true →
          (after.linker.objects other).isMainObject = true) (fun _ _ => True) := by
  simp only [injectObject, addLoadedObject, ends_bind, ends_get, ensure, ends_require, implies_true,
    and_true]
  intro _
  cases alloc : env.allocate repo.loadedObjects with
  | none => trivial
  | some obj =>
    have fresh := env.allocate_fresh alloc
    simp only [ends_bind, ends_require, implies_true, and_true]
    intro _
    refine ⟨?_, ?_, ?_⟩
    · apply wellFormed.withObject fresh rfl
      · simp [withObject]
      · simp [withObject]
        tauto
      · simp
      · simp
    · exact congrArg Loader.SharedObject.isMainObject (update_self obj _ repo.linker.objects)
    · intro other isMain
      have apart : other ≠ obj := by
        rintro rfl
        exact fresh (wellFormed.loaded_of_main isMain)
      refine Eq.trans ?_ isMain
      exact congrArg Loader.SharedObject.isMainObject (update_of_ne apart _ _)

theorem WellFormed.updateObject (wellFormed : WellFormed repo) (obj : α)
    {change : Loader.SharedObject α → Loader.SharedObject α}
    (places : ∀ so, (change so).place = so.place) :
    WellFormed { repo with linker := repo.linker.update obj change } := by
  have same : Loader.SamePlaces repo.linker (repo.linker.update obj change) :=
    (Loader.SameAs.refl _ _ repo.linker).updateObject obj change (places _) rfl
  exact wellFormed.promoted
    ((Loader.Promoted.refl ⟨none, globalScope, false, 0⟩ repo.linker).congr same)

omit [DecidableEq α] in
theorem WellFormed.running (wellFormed : WellFormed repo)
    (discovered : ∀ obj ∈ repo.dependencyQueue, repo.Discovered obj)
    {executable : α}
    (isMain : (repo.linker.objects executable).isMainObject = true)
    (closure : repo.ClosureGlobal executable) :
    Running { repo with executableSO := some executable } where
  toWellFormed := { wellFormed with
    executable_main := by
      rintro obj ⟨rfl⟩
      exact isMain }
  discovered queued := discovered _ queued
  executable := ⟨executable, rfl, closure⟩

theorem WellFormed.updatePath (wellFormed : WellFormed repo) (obj : α) (path : PathText) :
    WellFormed { repo with
      data := update repo.data obj { repo.data obj with path } } := by
  have same {β : Type} (view : ObjectData → β)
      (views : ∀ data, view { data with path } = view data) (other : α) :
      view (update repo.data obj { repo.data obj with path } other) = view (repo.data other) := by
    by_cases isObject : other = obj
    · rw [isObject, update_self, views]
    · rw [update_of_ne isObject]
  exact { wellFormed with
      visited_queued := by
        intro other visited
        rw [same ObjectData.wasVisited (fun _ => rfl)] at visited
        exact wellFormed.visited_queued visited
      main_queued := by
        intro other isMain
        rw [same ObjectData.localScope (fun _ => rfl)]
        exact wellFormed.main_queued isMain }

theorem ends_setupVdso (vdso : Option (PathText × ElfFile)) :
    Ends (setupVdso env vdso) (new α) (fun _ after => WellFormed after) (fun _ _ => True) := by
  cases vdso with
  | none => exact wellFormed_new
  | some vdso =>
    refine (ends_map _ _).mpr ?_
    exact (ends_injectObject wellFormed_new false vdso.1 [] vdso.2).imp fun _ _ ends => ends.1

theorem ends_interpreterMain [Fintype α] (files : FileSystem) (prog : Program) :
    Ends (interpreterMain env files prog) (new α) (fun _ after => Running after)
      (fun _ _ => True) := by
  simp only [interpreterMain, ends_bind]
  apply (ends_setupVdso prog.vdso).imp
  intro _ _ wellFormedStart
  apply (ends_injectObject wellFormedStart true prog.execfn prog.execfn prog.executable).imp
  rintro executable first ⟨wellFormedFirst, isMainFirst, _⟩
  apply (ends_injectObject wellFormedFirst false prog.ldsoSoname [] prog.ldso).imp
  rintro ldso second ⟨wellFormedSecond, _, keptMain⟩
  let skip (so : Loader.SharedObject α) : Loader.SharedObject α :=
    { so with skipRelocation := true, skipInit := true }
  have places : Loader.SamePlaces second.linker (second.linker.update ldso skip) :=
    (Loader.SameAs.refl _ _ second.linker).updateObject ldso _ rfl rfl
  have isMain : ((second.linker.update ldso skip).objects executable).isMainObject = true :=
    (congrArg (fun place => place.2.2) (places.2 executable)).trans
      (keptMain executable isMainFirst)
  have skips (so : Loader.SharedObject α) : (skip so).place = so.place := rfl
  have wellFormed :=
    (wellFormedSecond.updateObject ldso skips).updatePath ldso prog.interpreterPath
  apply (ends_discoverQueue _ wellFormed (Extends.refl env executable _)
    (fun old isBelow => absurd isBelow (Nat.not_lt_zero old))).imp_any
  rintro _ middle ⟨wellFormedMiddle, extended, discovered⟩
  apply (ends_linkAndInit _ executable middle).imp
  rintro _ _ ⟨linker, linkBfs, rfl, members, promoted⟩
  apply (wellFormedMiddle.promoted promoted).running discovered
  · rw [promoted.isMainObject, extended.isMainObject (wellFormed.loaded_of_main isMain)]
    exact isMain
  intro dep reaches
  change Reaches linker.dependencies executable dep at reaches
  rw [promoted.dependencies] at reaches
  exact global_of_promoted wellFormedMiddle promoted rfl Nat.one_pos ((members dep).mpr reaches)

end Start

/-! ### Runs -/

def openSystem [Fintype α] (environment : LinkerEnvironment α) :
    TransitionSystem (ObjectRepository α) (OpenCall α) where
  initial repository :=
    ∃ files prog, interpreterMain environment files prog (new α) = .ok () repository
  step repository call :=
    match dlapiOpen environment call repository with
    | .ok _ after => some after
    | .error _ _ => none

theorem openSystem_running [Fintype α] {repo : ObjectRepository α}
    (reach : (openSystem env).ReachableVia (fun repo _ => Unambiguous env repo) repo) :
    Running repo := by
  apply reach.invariant
  · rintro started ⟨files, prog, starts⟩
    exact (ends_of_run starts).mp (ends_interpreterMain files prog)
  intro before call after running unambiguous steps
  have ends := ends_dlapiOpen running unambiguous call
  unfold Ends at ends
  simp only [openSystem] at steps
  cases ran : dlapiOpen env call before with
  | ok result next =>
    rw [ran] at ends steps
    cases steps
    exact ends.1
  | error stop next =>
    rw [ran] at steps
    cases steps

/-- After a call with `RTLD_GLOBAL` and without `RTLD_NOLOAD` the object and everything that it
depends on are global, exactly if the call could rely on the earlier calls. -/
theorem dlapiOpen_global_iff {environment : LinkerEnvironment α} [Fintype α]
    {repository after : ObjectRepository α}
    (reach : (openSystem environment).ReachableVia
      (fun repository _ => Unambiguous environment repository) repository)
    (unambiguous : Unambiguous environment repository) (call : OpenCall α)
    (isGlobal : call.isGlobal = true) (loads : call.noLoad = false) {obj : α}
    (opens : dlapiOpen environment call repository = .ok (.ok (some obj)) after) :
    after.ClosureGlobal obj ↔ Promotable environment repository call := by
  have ends := (ends_of_run opens).mp (ends_dlapiOpen (openSystem_running reach) unambiguous call)
  exact ends.2 isGlobal loads obj rfl

instance (environment : LinkerEnvironment α) (repository : ObjectRepository α) :
    Decidable (Unambiguous environment repository) :=
  inferInstanceAs (Decidable (∀ obj ∈ repository.loadedObjects,
    ∀ name ∈ (repository.data obj).needed, ∃ dep ∈ repository.dependencies obj,
      findLoadedObject environment repository name = some dep))

def opened [Fintype α] (environment : LinkerEnvironment α) (call : OpenCall α)
    (repository : ObjectRepository α) : Option (α × ObjectRepository α) :=
  match dlapiOpen environment call repository with
  | .ok (.ok (some obj)) after => some (obj, after)
  | _ => none

theorem dlapiOpen_of_opened [Fintype α] {call : OpenCall α} {repo after : ObjectRepository α}
    {obj : α} (isOpened : opened env call repo = some (obj, after)) :
    dlapiOpen env call repo = .ok (.ok (some obj)) after := by
  unfold opened at isOpened
  split at isOpened
  · next opens =>
      cases isOpened
      exact opens
  · cases isOpened

def exampleEnvironment : LinkerEnvironment (Fin 5) where
  libraryPaths := [['/', 'l']]
  preloads := []
  lookup entries name := (entries.find? fun entry => entry.1 = name).map Prod.snd
  allocate used := (List.finRange 5).find? fun obj => obj ∉ used
  tlsAboveTp := false
  lookup_mem := by
    intro entries name obj found
    obtain ⟨⟨other, _⟩, isEntry, rfl⟩ := Option.map_eq_some_iff.mp found
    have isName : other = name := by simpa using List.find?_some isEntry
    rw [← isName]
    exact List.mem_of_find?_eq_some isEntry
  allocate_fresh found := by simpa using List.find?_some found

def exampleFiles : FileSystem
  | ['/', 'l', '/', 'a'] => some { contents := .ok { needed := [['b']] } }
  | ['/', 'l', '/', 'b'] => some { contents := .ok { needed := [['c']] } }
  | ['/', 'l', '/', 'c'] => some { contents := .ok {} }
  | _ => none

def exampleProgram : Program where
  execfn := ['e']
  executable := {}
  ldsoSoname := ['d']
  ldso := {}
  interpreterPath := []

def exampleStart : Option (ObjectRepository (Fin 5)) :=
  match interpreterMain exampleEnvironment exampleFiles exampleProgram (new (Fin 5)) with
  | .ok _ repository => some repository
  | .error _ _ => none

def exampleCall (file : PathText) (flags : BitVec 32) : OpenCall (Fin 5) :=
  ⟨some file, flags, exampleFiles, none⟩

theorem exampleStart_initial {repo : ObjectRepository (Fin 5)} (starts : exampleStart = some repo) :
    (openSystem exampleEnvironment).initial repo := by
  unfold exampleStart at starts
  split at starts
  · next ran =>
      cases starts
      exact ⟨exampleFiles, exampleProgram, ran⟩
  · cases starts

theorem dlapiOpen_global_shared : ∃ repository after, (openSystem exampleEnvironment).ReachableVia
        (fun repository _ => Unambiguous exampleEnvironment repository) repository ∧
      ¬repository.Global 2 ∧
      dlapiOpen exampleEnvironment (exampleCall ['a'] rtldGlobal) repository =
        .ok (.ok (some 4)) after ∧
      after.dependencies 4 = [2] ∧ after.dependencies 2 = [3, 3] ∧ after.ClosureGlobal 4 := by
  have observed : ∃ start ∈ exampleStart, ∃ repository ∈ (openSystem exampleEnvironment).run
      (fun repository _ => Unambiguous exampleEnvironment repository) start [exampleCall ['b'] 0],
      ∃ result ∈ opened exampleEnvironment (exampleCall ['a'] rtldGlobal) repository,
        result.1 = 4 ∧ result.2.dependencies 4 = [2] ∧ result.2.dependencies 2 = [3, 3] ∧
        (repository.linker.scopes globalScope).objects = [0] ∧
        Unambiguous exampleEnvironment repository ∧
        localObject exampleEnvironment repository ['a'] = none ∧
        requestedObject exampleEnvironment repository exampleFiles ['a'] = none := by
    decide +kernel
  obtain ⟨start, starts, repository, runs, ⟨_, after⟩, isOpened, rfl, fourth, second, members,
    unambiguous, noLocal, notLoaded⟩ := observed
  have reach := TransitionSystem.reachable_of_run runs (exampleStart_initial starts)
  have opens := dlapiOpen_of_opened isOpened
  have promotable : Promotable exampleEnvironment repository (exampleCall ['a'] rtldGlobal) := by
    rintro file ⟨rfl⟩
    rw [noLocal]
    intro obj isLoaded
    cases notLoaded.symm.trans isLoaded
  refine ⟨repository, after, reach, ?_, opens, fourth, second, ?_⟩
  · rintro ⟨mem, _⟩
    rw [members] at mem
    exact absurd mem (by decide)
  · exact (dlapiOpen_global_iff reach unambiguous (exampleCall ['a'] rtldGlobal) rfl rfl
      opens).mpr promotable

/-- The dependency of a library stays local when the library is opened again globally. -/
theorem dlapiOpen_global_forgets :
    ∃ repository after, (openSystem exampleEnvironment).Reachable repository ∧
      dlapiOpen exampleEnvironment (exampleCall ['b'] rtldGlobal) repository =
        .ok (.ok (some 2)) after ∧
      3 ∈ after.dependencies 2 ∧ ¬after.Global 3 ∧ ¬after.ClosureGlobal 2 := by
  have observed : ∃ start ∈ exampleStart, ∃ repository ∈
      (openSystem exampleEnvironment).run (fun _ _ => True) start [exampleCall ['b'] 0],
      ∃ result ∈ opened exampleEnvironment (exampleCall ['b'] rtldGlobal) repository,
        result.1 = 2 ∧ result.2.dependencies 2 = [3] ∧
        (result.2.linker.scopes globalScope).objects = [0, 2] := by
    decide +kernel
  obtain ⟨start, starts, repository, runs, ⟨_, after⟩, isOpened, rfl, isDependency, members⟩ :=
    observed
  have listed : 3 ∈ after.dependencies 2 := by
    rw [isDependency]
    decide
  have isLocal : ¬after.Global 3 := by
    rintro ⟨mem, _⟩
    rw [members] at mem
    exact absurd mem (by decide)
  refine ⟨repository, after, TransitionSystem.reachable_of_run runs (exampleStart_initial starts),
    dlapiOpen_of_opened isOpened, listed, isLocal, ?_⟩
  exact fun closure => isLocal (closure 3 (.single listed))

/-- After any calls the dependencies of every object are loaded and discovered, and those of the
executable are global. -/
theorem dependencies_loaded [Fintype α] {repo : ObjectRepository α}
    (reach : (openSystem env).ReachableVia (fun repo _ => Unambiguous env repo) repo) :
    (∀ obj, ∀ dep ∈ repo.dependencies obj, dep ∈ repo.loadedObjects ∧ repo.Discovered dep) ∧
      ∃ obj ∈ repo.executableSO, repo.ClosureGlobal obj := by
  have running := openSystem_running reach
  refine ⟨fun obj dep edge => ?_, running.executable⟩
  have queued := running.dependency_queued edge
  exact ⟨running.queued_loaded queued, running.discovered queued⟩

theorem dependencies_loaded_example : ∃ repo : ObjectRepository (Fin 5),
    3 ∈ repo.dependencies 2 ∧ 3 ∈ repo.loadedObjects ∧ repo.Discovered 3 := by
  have observed : ∃ start ∈ exampleStart, ∃ repo ∈ (openSystem exampleEnvironment).run
      (fun repo _ => Unambiguous exampleEnvironment repo) start [exampleCall ['b'] 0],
      3 ∈ repo.dependencies 2 := by
    decide +kernel
  obtain ⟨_, starts, repo, runs, edge⟩ := observed
  have reach := TransitionSystem.reachable_of_run runs (exampleStart_initial starts)
  exact ⟨repo, edge, (dependencies_loaded reach).1 2 3 edge⟩

end Mlibc.ObjectRepository
