import Mlibc.Loader

/-!
# The object repository and `dlopen`

The model of `ObjectRepository`, which loads objects and discovers their dependencies, and of
`__dlapi_open`.
-/

namespace Mlibc

abbrev PathText := List Char

inductive LinkerError where
  | notFound
  | fileTooShort
  | notElf
  | wrongElfType
  | outOfMemory
  | invalidProgramHeader
  deriving DecidableEq

def LinkerError.message : LinkerError → String
  | .notFound => "Cannot locate requested DSO"
  | .fileTooShort => "File too short"
  | .notElf => "File is not an ELF file"
  | .wrongElfType => "File has wrong ELF type"
  | .outOfMemory => "Out of memory"
  | .invalidProgramHeader => "File has invalid program header"

/-- What is read from the headers and from the dynamic section of a file. -/
structure ElfFile where
  soName : Option PathText := none
  /-- The names of the `DT_NEEDED` entries. -/
  needed : List PathText := []
  runPath : Option PathText := none
  dynamic : Bool := true
  preInitArraySize : Option Nat := none
  initArraySize : Nat := 0
  finiArraySize : Nat := 0
  tlsSegmentSize : BitVec 64 := 0
  tlsAlignment : BitVec 64 := 0
  haveStaticTls : Bool := false

def ElfFile.toSharedObject {α : Type} (elf : ElfFile) (isMainObject : Bool) (rts : Nat) :
    Loader.SharedObject α where
  dependencies := []
  isMainObject
  objectRts := rts
  dynamic := elf.dynamic
  preInitArraySize := elf.preInitArraySize
  initArraySize := elf.initArraySize
  finiArraySize := elf.finiArraySize
  tlsSegmentSize := elf.tlsSegmentSize
  tlsAlignment := elf.tlsAlignment
  haveStaticTls := elf.haveStaticTls

/-- A file that can be opened, with its device and inode if `Stat` tells them. -/
structure SystemFile where
  id : Option (Nat × Nat) := none
  contents : Except LinkerError ElfFile

abbrev FileSystem := PathText → Option SystemFile

/-- The fields of a `SharedObject` that the repository uses. -/
structure ObjectData where
  name : PathText := []
  path : PathText := []
  soName : Option PathText := none
  needed : List PathText := []
  runPath : Option PathText := none
  fileId : Option (Nat × Nat) := none
  localScope : Nat := 0
  wasVisited : Bool := false
  dependenciesDiscovered : Bool := false

/-- The repository, with the state of the linker.  Scope zero is `globalScope`. -/
structure ObjectRepository (α : Type) where
  linker : Loader.State α
  data : α → ObjectData
  loadedObjects : List α
  nameMap : List (PathText × α)
  dependencyQueue : List α
  rtsCounter : Nat
  scopeCount : Nat
  executableSO : Option α

/-- The search paths, the names of `LD_PRELOAD` with the text behind each, the lookups of the hash
map of names, the allocator and the TLS layout. -/
structure LinkerEnvironment (α : Type) where
  libraryPaths : List PathText
  preloads : List (PathText × PathText)
  lookup : List (PathText × α) → PathText → Option α
  allocate : List α → Option α
  tlsAboveTp : Bool
  lookup_mem : ∀ {entries name obj}, lookup entries name = some obj → (name, obj) ∈ entries
  allocate_fresh : ∀ {used obj}, allocate used = some obj → obj ∉ used

namespace ObjectRepository

inductive Stop where
  | loader (fault : Loader.Fault)
  /-- A message of `panicLogger`. -/
  | panic
  | undefined
  | outOfMemory
  deriving DecidableEq

abbrev RepositoryM (α : Type) := EStateM Stop (ObjectRepository α)

def ensure {α : Type} (cond : Prop) [Decidable cond] : RepositoryM α Unit :=
  require cond (.loader .ensure)

def runLoader {α β : Type} (prog : Loader.LoaderM α β) : RepositoryM α β := fun repo =>
  match prog repo.linker with
  | .ok value linker => .ok value { repo with linker }
  | .error fault linker => .error (.loader fault) { repo with linker }

def globalScope : Nat := 0

section Paths

def baseName (path : PathText) : PathText := (path.reverse.takeWhile (· ≠ '/')).reverse

def directoryName (path : PathText) : PathText :=
  if '/' ∈ path then ((path.reverse.dropWhile (· ≠ '/')).drop 1).reverse else ['.']

def originText : PathText := ['$', 'O', 'R', 'I', 'G', 'I', 'N']

/-- `processRpath`.  An empty directory is indexed at its last character. -/
def rpathCandidate (originPath name dir : PathText) : Option PathText :=
  let dir := if originText <+: dir then
      directoryName originPath ++ dir.drop originText.length
    else dir
  match dir.getLast? with
  | none => none
  | some '/' => some (dir ++ name)
  | some _ => some (dir ++ '/' :: name)

def tryPath (files : FileSystem) (result : Except LinkerError (PathText × SystemFile × ElfFile))
    (path : PathText) : Except LinkerError (PathText × SystemFile × ElfFile) :=
  match result with
  | .ok found => .ok found
  | .error err =>
    match files path with
    | none => .error err
    | some file => file.contents.map fun elf => (path, file, elf)

def tryDirectory (files : FileSystem) (originPath name : PathText)
    (result : Except LinkerError (PathText × SystemFile × ElfFile)) (dir : PathText) :
    Option (Except LinkerError (PathText × SystemFile × ElfFile)) :=
  match result with
  | .ok found => some (.ok found)
  | .error _ => (rpathCandidate originPath name dir).map (tryPath files result)

def searchLibrary (libraryPaths : List PathText) (files : FileSystem) (origin : ObjectData)
    (name : PathText) : Option (Except LinkerError (PathText × SystemFile × ElfFile)) := do
  let result ← (match origin.runPath with
    | some runPath =>
      (runPath.splitOn ':').foldlM (tryDirectory files origin.path name) (.error .notFound)
    | none => some (.error .notFound))
  return (libraryPaths.map fun dir => dir ++ '/' :: name).foldl (tryPath files) result

end Paths

variable {α : Type} [DecidableEq α] (env : LinkerEnvironment α)

def updateData (obj : α) (change : ObjectData → ObjectData) : RepositoryM α Unit :=
  modify fun repo => { repo with
    data := Function.update repo.data obj (change (repo.data obj)) }

def findLoadedObject (repo : ObjectRepository α) (name : PathText) : Option α :=
  match env.lookup repo.nameMap name with
  | some obj => some obj
  | none => repo.loadedObjects.find? fun obj =>
    (repo.data obj).soName = some name

omit [DecidableEq α] in
def findObjectAtPath (repo : ObjectRepository α) (path : PathText) : Option α :=
  repo.loadedObjects.find? fun obj =>
    (repo.data obj).path = path ∨ (repo.data obj).soName = some (baseName path)

omit [DecidableEq α] in
def findObjectByFileId (repo : ObjectRepository α) (id : Option (Nat × Nat)) : Option α :=
  match id with
  | none => none
  | some id => repo.loadedObjects.find? fun obj =>
    (repo.data obj).fileId = some id

def withObject (repo : ObjectRepository α) (obj : α) (so : Loader.SharedObject α)
    (data : ObjectData) : ObjectRepository α :=
  { repo with
    linker := repo.linker.update obj fun _ => so
    data := Function.update repo.data obj data
    loadedObjects := repo.loadedObjects ++ [obj]
    nameMap := (data.name, obj) :: repo.nameMap }

def withScope (repo : ObjectRepository α) : ObjectRepository α :=
  { repo with
    linker.scopes := Function.update repo.linker.scopes repo.scopeCount { isGlobal := false }
    scopeCount := repo.scopeCount + 1 }

/-- `_addLoadedObject`. -/
def addLoadedObject (isMainObject : Bool) (data : ObjectData) (elf : ElfFile) (rts : Nat) :
    RepositoryM α α := do
  match env.allocate (← get).loadedObjects with
  | none => throw .outOfMemory
  | some obj => do
      ensure elf.dynamic
      modify fun repo => repo.withObject obj (elf.toSharedObject isMainObject rts)
        { data with soName := elf.soName, needed := elf.needed, runPath := elf.runPath }
      return obj

def obtainScope (localScope : Option Nat) (createScope : Bool) : RepositoryM α Nat := do
  if createScope then
    ensure (localScope = none)
    let scope := (← get).scopeCount
    modify withScope
    return scope
  else
    match localScope with
    | none => throw (.loader .ensure)
    | some scope => return scope

/-- The object gets the name with the text behind it up to the terminator (`name.data()`). -/
def requestObjectWithName (files : FileSystem) (name behind : PathText) (origin : α)
    (localScope : Option Nat) (createScope : Bool) (rts : Nat) :
    RepositoryM α (Except LinkerError α) := do
  match findLoadedObject env (← get) name with
  | some obj => return .ok obj
  | none => do
      let scope ← obtainScope localScope createScope
      match searchLibrary env.libraryPaths files ((← get).data origin) name with
      | none => throw .undefined
      | some (.error err) => return .error err
      | some (.ok (path, file, elf)) =>
        return .ok (← addLoadedObject env false
          { name := name ++ behind, path, fileId := file.id, localScope := scope } elf rts)

def requestObjectAtPath (files : FileSystem) (path behind : PathText) (localScope : Option Nat)
    (createScope : Bool) (rts : Nat) : RepositoryM α (Except LinkerError α) := do
  match findObjectAtPath (← get) path with
  | some obj => return .ok obj
  | none => do
      let scope ← obtainScope localScope createScope
      match files path with
      | none => return .error .notFound
      | some file =>
        match findObjectByFileId (← get) file.id with
        | some obj => return .ok obj
        | none =>
          match file.contents with
          | .error err => return .error err
          | .ok elf =>
            return .ok (← addLoadedObject env false
              { name := baseName path ++ behind, path := path ++ behind, fileId := file.id,
                localScope := scope } elf rts)

def requestObject (files : FileSystem) (file behind : PathText) (origin : α)
    (localScope : Option Nat) (createScope : Bool) (rts : Nat) :
    RepositoryM α (Except LinkerError α) :=
  if '/' ∈ file then requestObjectAtPath env files file behind localScope createScope rts
  else requestObjectWithName env files file behind origin localScope createScope rts

def addDependency (obj : α) : Except LinkerError α → RepositoryM α Unit
  | .error _ => throw .panic
  | .ok lib => do
      runLoader (Loader.modifyObject obj fun so =>
        { so with dependencies := so.dependencies ++ [lib] })
      if ((← get).data lib).wasVisited then
        return
      else
        updateData lib fun data => { data with wasVisited := true }
        modify fun repo => { repo with
          dependencyQueue := repo.dependencyQueue ++ [lib] }

/-- `_discoverDependencies`. -/
def discoverDependencies (files : FileSystem) (obj : α) (localScope rts : Nat) :
    RepositoryM α Unit := do
  if ((← get).linker.objects obj).isMainObject then
    env.preloads.forM fun (preload, behind) => do
      addDependency obj (← requestObject env files preload behind obj (some globalScope) false 1)
  ((← get).data obj).needed.forM fun name => do
    addDependency obj (← requestObjectWithName env files name [] obj (some localScope) false rts)

def discoverDependenciesFromLoadedObject (files : FileSystem) (obj : α) : RepositoryM α Unit := do
  let repo ← get
  discoverDependencies env files obj (repo.data obj).localScope (repo.linker.objects obj).objectRts

def discoverQueue (files : FileSystem) : Nat → Nat → RepositoryM α Unit
  | 0, _ => throw (.loader .outOfFuel)
  | fuel + 1, index => do
      match (← get).dependencyQueue[index]? with
      | none => return
      | some current => do
          if ¬((← get).data current).dependenciesDiscovered then
            discoverDependenciesFromLoadedObject env files current
            updateData current fun data => { data with dependenciesDiscovered := true }
          discoverQueue files fuel (index + 1)

def linkAndInit [Fintype α] (loader : Loader α) (obj : α) : RepositoryM α Unit := do
  let linkBfs ← runLoader (Loader.linkObjects loader env.tlsAboveTp obj)
  runLoader (Loader.initObjects loader linkBfs)

/-! ### Start of the process -/

def injectObject (isMainObject : Bool) (name path : PathText) (elf : ElfFile) :
    RepositoryM α α := do
  ensure (findLoadedObject env (← get) name = none)
  let obj ← addLoadedObject env isMainObject
    { name, path, localScope := globalScope, wasVisited := true } elf 1
  modify fun repo => { repo with
    dependencyQueue := repo.dependencyQueue ++ [obj] }
  return obj

def new (α : Type) : ObjectRepository α where
  linker :=
    { objects := fun _ =>
        { dependencies := [], isMainObject := false, objectRts := 0, dynamic := false }
      scopes := fun scope => { isGlobal := scope = globalScope } }
  data := fun _ => {}
  loadedObjects := []
  nameMap := []
  dependencyQueue := []
  rtsCounter := 2
  scopeCount := 1
  executableSO := none

/-- What the process is started with. -/
structure Program where
  vdso : Option (PathText × ElfFile) := none
  execfn : PathText
  executable : ElfFile
  ldsoSoname : PathText
  ldso : ElfFile
  interpreterPath : PathText

def setupVdso (vdso : Option (PathText × ElfFile)) : RepositoryM α Unit :=
  match vdso with
  | none => return
  | some (soname, elf) => discard (injectObject env false soname [] elf)

/-- The part of `interpreterMain` that links the executable.  No dependencies were discovered
before. -/
def interpreterMain [Fintype α] (files : FileSystem) (prog : Program) : RepositoryM α Unit := do
  setupVdso env prog.vdso
  let executable ← injectObject env true prog.execfn prog.execfn prog.executable
  let ldso ← injectObject env false prog.ldsoSoname [] prog.ldso
  runLoader (Loader.modifyObject ldso fun so =>
    { so with skipRelocation := true, skipInit := true })
  updateData ldso fun data => { data with path := prog.interpreterPath }
  discoverQueue env files (Fintype.card α + 1) 0
  linkAndInit env ⟨some executable, globalScope, true, 1⟩ executable
  modify fun repo => { repo with executableSO := some executable }

/-! ### Opening -/

def rtldNoload : BitVec 32 := 4

def rtldGlobal : BitVec 32 := 256

/-- A call of `dlopen`, with the files of the system and the object of the caller. -/
structure OpenCall (α : Type) where
  file : Option PathText
  flags : BitVec 32
  files : FileSystem
  caller : Option α

def OpenCall.isGlobal (call : OpenCall α) : Bool := call.flags &&& rtldGlobal ≠ 0

def OpenCall.noLoad (call : OpenCall α) : Bool := call.flags &&& rtldNoload ≠ 0

def promoteToGlobal (obj : α) (rts : Nat) : RepositoryM α Unit := do
  runLoader (Loader.modifyObject obj fun so => { so with globalRts := rts })
  modify fun repo => { repo with
    linker.scopes := Function.update repo.linker.scopes globalScope
      ((repo.linker.scopes globalScope).appendObject obj) }

def loadDependencies [Fintype α] (files : FileSystem) (obj : α) (rts : Nat) :
    RepositoryM α Unit := do
  discoverDependenciesFromLoadedObject env files obj
  discoverQueue env files (Fintype.card α + 1) 0
  linkAndInit env ⟨none, ((← get).data obj).localScope, false, rts⟩ obj

def openObject [Fintype α] (call : OpenCall α) (file : PathText) (executable : α) (rts : Nat) :
    RepositoryM α (Except String (Option α)) := do
  let localScope := if call.isGlobal then some globalScope else none
  match ← requestObject env call.files file [] (call.caller.getD executable) localScope
      (!call.isGlobal) rts with
  | .error err => return .error err.message
  | .ok obj => do
      loadDependencies env call.files obj rts
      return .ok (some obj)

/-- `__dlapi_open`. -/
def dlapiOpen [Fintype α] (call : OpenCall α) : RepositoryM α (Except String (Option α)) := do
  match call.file, (← get).executableSO with
  | none, executable => return .ok executable
  | some _, none => throw .undefined
  | some file, some executable => do
      let rts := (← get).rtsCounter
      modify fun repo => { repo with rtsCounter := repo.rtsCounter + 1 }
      match findLoadedObject env (← get) (baseName file) with
      | some obj =>
        if ((← get).linker.objects obj).globalRts = 0 ∧ call.isGlobal then
          promoteToGlobal obj rts
          return .ok (some obj)
        else if call.noLoad then
          return .ok (some obj)
        else
          openObject env call file executable rts
      | none =>
        if call.noLoad then
          return .ok none
        else
          openObject env call file executable rts

end ObjectRepository

end Mlibc
