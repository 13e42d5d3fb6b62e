import Mlibc.LoaderPromotion
import Mlibc.ObjectRepository

/-! # Requesting objects -/

namespace Mlibc.ObjectRepository

open Function List

variable {α : Type}

def dependencies (repository : ObjectRepository α) : α → List α := repository.linker.dependencies

def identity (repository : ObjectRepository α) (obj : α) : ObjectData :=
  { repository.data obj with wasVisited := false, dependenciesDiscovered := false }

def Discovered (repository : ObjectRepository α) (obj : α) : Prop :=
  (repository.data obj).dependenciesDiscovered = true

/-- What holds of every repository between the steps of a load. -/
structure WellFormed (repository : ObjectRepository α) : Prop where
  global_isGlobal : (repository.linker.scopes globalScope).isGlobal = true
  other_isGlobal : ∀ scope ≠ globalScope, (repository.linker.scopes scope).isGlobal = false
  scopeCount_pos : 0 < repository.scopeCount
  rtsCounter_pos : 0 < repository.rtsCounter
  named_loaded : ∀ {name obj}, (name, obj) ∈ repository.nameMap → obj ∈ repository.loadedObjects
  queued_loaded : ∀ {obj}, obj ∈ repository.dependencyQueue → obj ∈ repository.loadedObjects
  dependency_queued : ∀ {obj dep}, dep ∈ repository.dependencies obj →
    dep ∈ repository.dependencyQueue
  visited_queued : ∀ {obj}, (repository.data obj).wasVisited = true →
    obj ∈ repository.dependencyQueue
  main_queued : ∀ {obj}, (repository.linker.objects obj).isMainObject = true →
    obj ∈ repository.dependencyQueue ∧ (repository.data obj).localScope = globalScope
  executable_main : ∀ {obj}, repository.executableSO = some obj →
    (repository.linker.objects obj).isMainObject = true

section Rules

variable {repo : ObjectRepository α} {fails : Stop → ObjectRepository α → Prop}

@[simp]
theorem ends_runLoader {β : Type} (prog : Loader.LoaderM α β)
    {returns : β → ObjectRepository α → Prop} :
    Ends (runLoader prog) repo returns fails ↔ Ends prog repo.linker
        (fun value linker => returns value { repo with linker })
        (fun fault linker => fails (.loader fault) { repo with linker }) := by
  unfold Ends runLoader
  cases prog repo.linker with
  | ok value linker => rfl
  | error fault linker => rfl

end Rules

variable {env : LinkerEnvironment α} {repo : ObjectRepository α} {obj : α} {files : FileSystem}

def requestedObject (environment : LinkerEnvironment α) (repository : ObjectRepository α)
    (files : FileSystem) (file : PathText) : Option α :=
  if '/' ∈ file then
    match findObjectAtPath repository file with
    | some obj => some obj
    | none => (files file).bind fun opened => findObjectByFileId repository opened.id
  else findLoadedObject environment repository file

theorem WellFormed.findLoadedObject_loaded (wellFormed : WellFormed repo) {name : PathText}
    (found : findLoadedObject env repo name = some obj) :
    obj ∈ repo.loadedObjects := by
  unfold findLoadedObject at found
  split at found
  · next isNamed =>
      cases found
      exact wellFormed.named_loaded (env.lookup_mem isNamed)
  · exact mem_of_find?_eq_some found

theorem WellFormed.requestedObject_loaded (wellFormed : WellFormed repo) {file : PathText}
    (found : requestedObject env repo files file = some obj) :
    obj ∈ repo.loadedObjects := by
  unfold requestedObject at found
  split_ifs at found
  · cases atPath : findObjectAtPath repo file with
    | some other =>
      rw [atPath] at found
      cases found
      exact mem_of_find?_eq_some atPath
    | none =>
      rw [atPath] at found
      obtain ⟨opened, _, sameFile⟩ := Option.bind_eq_some_iff.mp found
      cases isId : opened.id with
      | none =>
        rw [isId] at sameFile
        cases sameFile
      | some id =>
        rw [isId] at sameFile
        exact mem_of_find?_eq_some sameFile
  · exact wellFormed.findLoadedObject_loaded found

variable [DecidableEq α]

/-! ### Requests -/

def Added (scope : Nat) (obj : α) (before after : ObjectRepository α) : Prop :=
  obj ∉ before.loadedObjects ∧ ∃ (so : Loader.SharedObject α) (data : ObjectData),
    so.dependencies = [] ∧ so.isMainObject = false ∧ so.globalRts = 0 ∧
    data.localScope = scope ∧ data.wasVisited = false ∧ data.dependenciesDiscovered = false ∧
    after = before.withObject obj so data

def Scoped (localScope : Option Nat) (createScope : Bool) (before : ObjectRepository α)
    (scope : Nat) (after : ObjectRepository α) : Prop :=
  if createScope then scope = before.scopeCount ∧ after = before.withScope
  else localScope = some scope ∧ after = before

def RequestEnds (localScope : Option Nat) (createScope : Bool) (before : ObjectRepository α)
    (found : Option α) (result : Except LinkerError α) (after : ObjectRepository α) : Prop :=
  match result, found with
  | .error _, _ => ∃ scope, Scoped localScope createScope before scope after
  | .ok obj, some loaded =>
    obj = loaded ∧ (after = before ∨ ∃ scope, Scoped localScope createScope before scope after)
  | .ok obj, none =>
    ∃ scope middle, Scoped localScope createScope before scope middle ∧ Added scope obj middle after

section Requests

variable {localScope : Option Nat} {createScope : Bool}

theorem ends_addLoadedObject {data : ObjectData} (elf : ElfFile) (rts : Nat)
    (notVisited : data.wasVisited = false) (notDiscovered : data.dependenciesDiscovered = false) :
    Ends (addLoadedObject env false data elf rts) repo
      (fun obj after => Added data.localScope obj repo after) (fun _ _ => True) := by
  simp only [addLoadedObject, ends_bind, ends_get]
  cases alloc : env.allocate repo.loadedObjects with
  | none => trivial
  | some obj =>
    simp only [ends_bind, ensure, ends_require, implies_true, and_true]
    intro _
    exact ⟨env.allocate_fresh alloc, elf.toSharedObject false rts,
      { data with soName := elf.soName, needed := elf.needed, runPath := elf.runPath },
      rfl, rfl, rfl, rfl, notVisited, notDiscovered, rfl⟩

omit [DecidableEq α] in
theorem ends_obtainScope : Ends (obtainScope localScope createScope) repo
      (fun scope after => Scoped localScope createScope repo scope after)
      (fun _ _ => True) := by
  unfold obtainScope Scoped
  cases createScope with
  | true =>
    simp only [if_true, ends_bind, ensure, ends_require, ends_get, ends_modify, ends_pure,
      implies_true, and_self]
  | false =>
    cases localScope with
    | none => trivial
    | some scope => exact ⟨rfl, rfl⟩

theorem ends_requestObjectWithName (name behind : PathText) (origin : α) (rts : Nat) :
    Ends (requestObjectWithName env files name behind origin localScope createScope rts)
      repo (RequestEnds localScope createScope repo
        (findLoadedObject env repo name)) (fun _ _ => True) := by
  simp only [requestObjectWithName, ends_bind, ends_get]
  cases findLoadedObject env repo name with
  | some found => exact ⟨rfl, .inl rfl⟩
  | none =>
    simp only [ends_bind, ends_get]
    apply ends_obtainScope.imp
    intro scope middle obtained
    cases searchLibrary env.libraryPaths files (middle.data origin) name with
    | none => trivial
    | some result =>
      cases result with
      | error error => exact ⟨scope, obtained⟩
      | ok found =>
        simp only [ends_bind]
        apply (ends_addLoadedObject found.2.2 rts rfl rfl).imp
        intro obj after added
        exact ⟨scope, middle, obtained, added⟩

section

omit [DecidableEq α]

variable {scope : Nat} {after : ObjectRepository α}
  (obtained : Scoped localScope createScope repo scope after)

include obtained

theorem Scoped.after_eq : after = repo.withScope ∨ after = repo := by
  unfold Scoped at obtained
  split_ifs at obtained
  · exact .inl obtained.2
  · exact .inr obtained.2

theorem Scoped.findObjectByFileId (id : Option (Nat × Nat)) :
    findObjectByFileId after id = findObjectByFileId repo id := by
  obtain rfl | rfl := obtained.after_eq <;> rfl

end

theorem ends_requestObject (file behind : PathText) (origin : α) (rts : Nat) :
    Ends (requestObject env files file behind origin localScope createScope rts) repo
      (RequestEnds localScope createScope repo
        (requestedObject env repo files file)) (fun _ _ => True) := by
  unfold requestObject requestedObject
  split_ifs with hasSlash
  · simp only [requestObjectAtPath, ends_bind, ends_get]
    cases findObjectAtPath repo file with
    | some found => exact ⟨rfl, .inl rfl⟩
    | none =>
      simp only [ends_bind]
      apply ends_obtainScope.imp
      intro scope middle obtained
      cases files file with
      | none => exact ⟨scope, obtained⟩
      | some opened =>
        simp only [ends_bind, ends_get, Option.bind_some, obtained.findObjectByFileId]
        cases findObjectByFileId repo opened.id with
        | some found => exact ⟨rfl, .inr ⟨scope, obtained⟩⟩
        | none =>
          cases opened.contents with
          | error error => exact ⟨scope, obtained⟩
          | ok elf =>
            simp only [ends_bind]
            apply (ends_addLoadedObject elf rts rfl rfl).imp
            intro obj after added
            exact ⟨scope, middle, obtained, added⟩
  · exact ends_requestObjectWithName file behind origin rts

end Requests

/-! ### Loading an object -/

section Added

variable {root : α} {scope : Nat} {start before after : ObjectRepository α}

omit [DecidableEq α] in
theorem WellFormed.loaded_of_main (wellFormed : WellFormed before)
    (isMain : (before.linker.objects obj).isMainObject = true) :
    obj ∈ before.loadedObjects :=
  wellFormed.queued_loaded (wellFormed.main_queued isMain).1

section

variable (added : Added scope obj before after)

include added

theorem Added.mem_loadedObjects (other : α) :
    other ∈ after.loadedObjects ↔ other ∈ before.loadedObjects ∨ other = obj := by
  obtain ⟨_, so, data, _, _, _, _, _, _, rfl⟩ := added
  simp [withObject]

theorem Added.dependencyQueue : after.dependencyQueue = before.dependencyQueue := by
  obtain ⟨_, so, data, _, _, _, _, _, _, rfl⟩ := added
  rfl

theorem Added.other {other : α} (apart : other ≠ obj) :
    after.linker.objects other = before.linker.objects other ∧
      after.data other = before.data other := by
  obtain ⟨_, so, data, _, _, _, _, _, _, rfl⟩ := added
  exact ⟨update_of_ne apart _ _, update_of_ne apart _ _⟩

theorem Added.itself : (after.linker.objects obj).dependencies = [] ∧
      (after.linker.objects obj).isMainObject = false ∧
      (after.data obj).wasVisited = false ∧ (after.data obj).localScope = scope := by
  obtain ⟨_, so, data, noDependencies, notMain, _, isScope, notVisited, _, rfl⟩ := added
  simp [withObject, Loader.State.update, noDependencies, notMain, isScope, notVisited]

end

theorem WellFormed.withObject (wellFormed : WellFormed before) {so : Loader.SharedObject α}
    {data : ObjectData} {queue : List α}
    (fresh : obj ∉ before.loadedObjects) (noDependencies : so.dependencies = [])
    (queued : ∀ other, other ∈ queue → other ∈ before.dependencyQueue ∨ other = obj)
    (stillQueued : ∀ other, other ∈ before.dependencyQueue → other ∈ queue)
    (visited : data.wasVisited = true → obj ∈ queue)
    (main : so.isMainObject = true → obj ∈ queue ∧ data.localScope = globalScope) :
    WellFormed { before.withObject obj so data with dependencyQueue := queue } := by
  have loaded (other : α) : other ∈ before.loadedObjects ++ [obj] ↔
      other ∈ before.loadedObjects ∨ other = obj := by simp
  have objects (other : α) : (before.linker.update obj fun _ => so).objects other =
      if other = obj then so else before.linker.objects other := by
    split_ifs with same
    · rw [same, Loader.State.update_self]
    · rw [Loader.State.update_of_ne same]
  refine { wellFormed with
      named_loaded := ?_
      queued_loaded := ?_
      dependency_queued := ?_
      visited_queued := ?_
      main_queued := ?_
      executable_main := ?_ }
  · intro name other named
    obtain same | named := mem_cons.mp named
    · exact (loaded _).mpr (.inr (Prod.mk.inj same).2)
    · exact (loaded _).mpr (.inl (wellFormed.named_loaded named))
  · intro other isQueued
    apply (loaded other).mpr
    exact (queued other isQueued).imp_left wellFormed.queued_loaded
  · simp only [dependencies, Loader.State.dependencies, ObjectRepository.withObject, objects]
    intro other dep isDependency
    split_ifs at isDependency
    · rw [noDependencies] at isDependency
      cases isDependency
    · exact stillQueued _ (wellFormed.dependency_queued isDependency)
  · simp only [ObjectRepository.withObject, update_apply]
    intro other isVisited
    split_ifs at isVisited with same
    · exact same ▸ visited isVisited
    · exact stillQueued _ (wellFormed.visited_queued isVisited)
  · simp only [ObjectRepository.withObject, update_apply, objects]
    intro other isMain
    split_ifs at isMain ⊢ with same
    · exact same ▸ main isMain
    · exact (wellFormed.main_queued isMain).imp_left (stillQueued _)
  · intro other isExecutable
    have isMain := wellFormed.executable_main isExecutable
    have apart : other ≠ obj := by
      rintro rfl
      exact fresh (wellFormed.loaded_of_main isMain)
    simp only [ObjectRepository.withObject, objects, if_neg apart, isMain]

theorem Added.wellFormed (added : Added scope obj before after)
    (wellFormed : WellFormed before) : WellFormed after := by
  obtain ⟨fresh, so, data, noDependencies, notMain, _, _, notVisited, _, rfl⟩ := added
  apply wellFormed.withObject fresh noDependencies
  · exact fun _ => .inl
  · exact fun _ => id
  · intro visited
    rw [notVisited] at visited
    cases visited
  · intro isMain
    rw [notMain] at isMain
    cases isMain

end Added

/-! ### Adding a dependency -/

def withDependency (repository : ObjectRepository α) (obj lib : α) : ObjectRepository α :=
  { repository with
    linker := repository.linker.update obj fun so =>
      { so with dependencies := so.dependencies ++ [lib] }
    data := if (repository.data lib).wasVisited then repository.data
      else Function.update repository.data lib { repository.data lib with wasVisited := true }
    dependencyQueue := if (repository.data lib).wasVisited then repository.dependencyQueue
      else repository.dependencyQueue ++ [lib] }

section Dependency

variable {lib : α}

theorem ends_addDependency {returns : Unit → ObjectRepository α → Prop}
    {fails : Stop → ObjectRepository α → Prop}
    (holds : returns () (repo.withDependency obj lib)) :
    Ends (addDependency obj (.ok lib)) repo returns fails := by
  unfold withDependency at holds
  apply ends_ite.mpr
  constructor
  · intro visited
    rw [if_pos visited, if_pos visited] at holds
    exact holds
  · intro notVisited
    rw [if_neg notVisited, if_neg notVisited] at holds
    exact holds

section Fields

variable (repo obj lib)

theorem mem_dependencies_withDependency (other dep : α) :
    dep ∈ (repo.withDependency obj lib).dependencies other ↔
      dep ∈ repo.dependencies other ∨ other = obj ∧ dep = lib := by
  change dep ∈ ((repo.linker.update obj fun so =>
    { so with
      dependencies := so.dependencies ++ [lib] }).objects other).dependencies ↔ _
  by_cases same : other = obj
  · subst same
    rw [Loader.State.update_self]
    simp [dependencies, Loader.State.dependencies]
  · rw [Loader.State.update_of_ne same]
    simp [dependencies, Loader.State.dependencies, same]

theorem mem_queue_withDependency (other : α) :
    other ∈ (repo.withDependency obj lib).dependencyQueue ↔ other ∈ repo.dependencyQueue ∨
        (repo.data lib).wasVisited = false ∧ other = lib := by
  unfold withDependency
  split_ifs with visited
  · simp [visited]
  · simp [visited]

theorem prefix_queue_withDependency : repo.dependencyQueue <+:
    (repo.withDependency obj lib).dependencyQueue := by
  unfold withDependency
  split_ifs
  · exact prefix_refl _
  · exact prefix_append ..

theorem wasVisited_withDependency (other : α) :
    ((repo.withDependency obj lib).data other).wasVisited = true ↔
      (repo.data other).wasVisited = true ∨ other = lib := by
  unfold withDependency
  split_ifs with visited
  · constructor
    · exact .inl
    · rintro (old | rfl)
      · exact old
      · exact visited
  · by_cases same : other = lib
    · subst same
      simp
    · simp [same]

theorem identity_withDependency (other : α) :
    (repo.withDependency obj lib).identity other = repo.identity other := by
  unfold identity withDependency
  split_ifs with visited
  · rfl
  by_cases same : other = lib
  · subst same
    simp
  · simp [same]

theorem discovered_withDependency (other : α) :
    (repo.withDependency obj lib).Discovered other ↔ repo.Discovered other := by
  unfold Discovered withDependency
  split_ifs with visited
  · rfl
  by_cases same : other = lib
  · subst same
    simp
  · simp [same]

theorem objects_withDependency {β : Type} (view : Loader.SharedObject α → β)
    (views : ∀ so dependencies, view { so with dependencies } = view so) (other : α) :
    view ((repo.withDependency obj lib).linker.objects other) =
      view (repo.linker.objects other) := by
  change view ((repo.linker.update obj fun so =>
    { so with dependencies := so.dependencies ++ [lib] }).objects other) = _
  by_cases same : other = obj
  · rw [same, Loader.State.update_self, views]
  · rw [Loader.State.update_of_ne same]

end Fields

section Identity

omit [DecidableEq α]

variable {before after : ObjectRepository α} (same : after.identity obj = before.identity obj)

include same

theorem localScope_eq_of_identity : (after.data obj).localScope = (before.data obj).localScope := by
  have scopes := congrArg ObjectData.localScope same
  exact scopes

theorem needed_eq_of_identity : (after.data obj).needed = (before.data obj).needed := by
  have names := congrArg ObjectData.needed same
  exact names

theorem soName_eq_of_identity : (after.data obj).soName = (before.data obj).soName := by
  have names := congrArg ObjectData.soName same
  exact names

end Identity

theorem WellFormed.withDependency (wellFormed : WellFormed repo)
    (loaded : lib ∈ repo.loadedObjects) (obj : α) :
    WellFormed (repo.withDependency obj lib) := by
  have isMain := objects_withDependency repo obj lib
    Loader.SharedObject.isMainObject (fun _ _ => rfl)
  have queue := mem_queue_withDependency repo obj lib
  have inQueue : lib ∈ (repo.withDependency obj lib).dependencyQueue := by
    rw [queue]
    cases visited : (repo.data lib).wasVisited with
    | true => exact .inl (wellFormed.visited_queued visited)
    | false => exact .inr ⟨rfl, rfl⟩
  refine { wellFormed with
      queued_loaded := ?_
      dependency_queued := ?_
      visited_queued := ?_
      main_queued := ?_
      executable_main := ?_ }
  · intro other queued
    obtain old | ⟨_, rfl⟩ := (queue other).mp queued
    · exact wellFormed.queued_loaded old
    · exact loaded
  · intro other dep isDependency
    rw [mem_dependencies_withDependency] at isDependency
    obtain old | ⟨_, rfl⟩ := isDependency
    · exact (queue _).mpr (.inl (wellFormed.dependency_queued old))
    · exact inQueue
  · intro other visited
    rw [wasVisited_withDependency] at visited
    obtain old | rfl := visited
    · exact (queue _).mpr (.inl (wellFormed.visited_queued old))
    · exact inQueue
  · intro other isMainObject
    rw [isMain] at isMainObject
    obtain ⟨queued, inGlobal⟩ := wellFormed.main_queued isMainObject
    refine ⟨(queue _).mpr (.inl queued), ?_⟩
    rw [localScope_eq_of_identity (identity_withDependency repo obj lib other)]
    exact inGlobal
  · intro other isExecutable
    rw [isMain]
    exact wellFormed.executable_main isExecutable

end Dependency

end Mlibc.ObjectRepository
