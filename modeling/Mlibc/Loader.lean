import Mathlib.Data.Finset.Basic
import Mathlib.Data.Fintype.Card
import Mathlib.Logic.Function.Basic
import Mlibc.Postconditions

/-!
# The loader of the dynamic linker

The model of `Loader`, `ObjectRepository` and `RuntimeTlsMap`.  The objects are the elements of a
type.
-/

namespace Mlibc.Loader

inductive Fault where
  /-- An `__ensure` does not hold. -/
  | ensure
  /-- There is no static TLS space left. -/
  | staticTlsExhausted
  /-- The bound of the model on the steps of a loop is used up. -/
  | outOfFuel
deriving DecidableEq, Repr

inductive TlsModel where
  | null
  | initial
  | dynamic
deriving DecidableEq, Repr

/-- What the loader reads and writes of a `SharedObject`. -/
structure SharedObject (α : Type) where
  dependencies : List α
  isMainObject : Bool
  objectRts : Nat
  globalRts : Nat := 0
  /-- Whether there is a dynamic section. -/
  dynamic : Bool
  /-- The size of the array in bytes, if there is one. -/
  preInitArraySize : Option Nat := none
  initArraySize : Nat := 0
  finiArraySize : Nat := 0
  tlsSegmentSize : BitVec 64 := 0
  tlsAlignment : BitVec 64 := 0
  haveStaticTls : Bool := false
  tlsModel : TlsModel := .null
  tlsIndex : Nat := 0
  tlsOffset : BitVec 64 := 0
  skipRelocation : Bool := false
  skipInit : Bool := false
  wasLinked : Bool := false
  scheduledForInit : Bool := false
  onInitStack : Bool := false
  wasInitialized : Bool := false
  wasDestroyed : Bool := false

/-- `Scope`, with its objects in the order of the search. -/
structure Scope (α : Type) where
  isGlobal : Bool
  objects : List α := []

/-- `RuntimeTlsMap`. -/
structure RuntimeTlsMap (α : Type) where
  initialPtr : BitVec 64 := 0
  initialLimit : BitVec 64 := 0
  /-- Index zero is reserved. -/
  indices : List (Option α) := [none]

/-- The objects by their names, and what the functions of the loader did to them. -/
structure State (α : Type) where
  objects : α → SharedObject α
  scopes : Nat → Scope α
  runtimeTlsMap : RuntimeTlsMap α := {}
  tlsMaxAlignment : BitVec 64 := 16
  /-- The objects that are to be destructed, the first one on top. -/
  destructQueue : List α := []
  /-- The objects whose static relocations were processed. -/
  relocated : List α := []
  /-- The objects whose functions for the time before initialization ran. -/
  preInitialized : List α := []
  /-- The objects whose initialization functions ran. -/
  initialized : List α := []
  /-- The objects whose termination functions ran. -/
  destructed : List α := []

end Loader

/-- `Loader`, one for each load. -/
structure Loader (α : Type) where
  mainExecutable : Option α
  loadScope : Nat
  isInitialLink : Bool
  linkRts : Nat

namespace Loader

abbrev LoaderM (α : Type) := EStateM Fault (State α)

variable {α : Type} [DecidableEq α]

def ensure (cond : Prop) [Decidable cond] : LoaderM α Unit :=
  require cond .ensure

def State.update (s : State α) (obj : α) (change : SharedObject α → SharedObject α) : State α :=
  { s with objects := Function.update s.objects obj (change (s.objects obj)) }

def getObject (obj : α) : LoaderM α (SharedObject α) := do
  return (← get).objects obj

def modifyObject (obj : α) (change : SharedObject α → SharedObject α) : LoaderM α Unit :=
  modify fun s => s.update obj change

def pushDependencies : List α → Finset α → List α → Finset α × List α
  | [], set, linkBfs => (set, linkBfs)
  | dep :: rest, set, linkBfs =>
    if dep ∈ set then pushDependencies rest set linkBfs
    else pushDependencies rest (insert dep set) (linkBfs ++ [dep])

def buildLinkBfsLoop (ld : Loader α) : Nat → Nat → Finset α → List α → LoaderM α (List α)
  | 0, _, _, _ => throw .outOfFuel
  | fuel + 1, index, set, linkBfs =>
    match linkBfs[index]? with
    | none => return linkBfs
    | some current => do
        let obj ← getObject current
        ensure (obj.tlsAlignment &&& (obj.tlsAlignment - 1) = 0)
        modify fun s =>
          if ld.isInitialLink ∧ s.tlsMaxAlignment < obj.tlsAlignment then
            { s with tlsMaxAlignment := obj.tlsAlignment }
          else s
        let (set, linkBfs) := pushDependencies obj.dependencies set linkBfs
        buildLinkBfsLoop ld fuel (index + 1) set linkBfs

/-- `_buildLinkBfs`. -/
def buildLinkBfs [Fintype α] (ld : Loader α) (root : α) : LoaderM α (List α) :=
  buildLinkBfsLoop ld (Fintype.card α + 2) 0 ∅ [root]

def alignPtr (ptr align : BitVec 64) : BitVec 64 :=
  let misalign := ptr &&& (align - 1)
  if misalign ≠ 0 then ptr + (align - misalign) else ptr

def placeInitial (above : Bool) (obj : α) : LoaderM α Unit := do
  let so ← getObject obj
  let initialPtr := (← get).runtimeTlsMap.initialPtr
  if above then
    let start := alignPtr initialPtr so.tlsAlignment
    modifyObject obj fun so =>
      { so with tlsModel := .initial, tlsOffset := start }
    modify fun s => { s with
      runtimeTlsMap.initialPtr := start + so.tlsSegmentSize }
  else
    let start := alignPtr (initialPtr + so.tlsSegmentSize) so.tlsAlignment
    modifyObject obj fun so =>
      { so with tlsModel := .initial, tlsOffset := -start }
    modify fun s => { s with runtimeTlsMap.initialPtr := start }

def allocateIndex (obj : α) : LoaderM α Unit := do
  let index := (← get).runtimeTlsMap.indices.length
  modifyObject obj fun so => { so with tlsIndex := index }
  modify fun s => { s with
    runtimeTlsMap.indices := s.runtimeTlsMap.indices ++ [some obj] }

def mapInitialObject (above : Bool) (obj : α) : LoaderM α Unit := do
  let so ← getObject obj
  ensure (so.tlsModel = .null)
  if so.tlsSegmentSize ≠ 0 then
    allocateIndex obj
    let so ← getObject obj
    ensure (so.isMainObject → so.tlsIndex = 1)
    placeInitial above obj

def mapLaterObject (above : Bool) (obj : α) : LoaderM α Unit := do
  let so ← getObject obj
  if so.tlsModel = .null ∧ so.tlsSegmentSize ≠ 0 then
    allocateIndex obj
    if so.haveStaticTls then
      placeInitial above obj
      let map := (← get).runtimeTlsMap
      if map.initialLimit < map.initialPtr then
        throw .staticTlsExhausted
    else
      modifyObject obj fun so => { so with tlsModel := .dynamic }

/-- `_buildTlsMaps`. -/
def buildTlsMaps (ld : Loader α) (above : Bool) (linkBfs : List α) : LoaderM α Unit := do
  if ld.isInitialLink then
    let map := (← get).runtimeTlsMap
    ensure (map.initialPtr = 0)
    ensure (map.initialLimit = 0)
    match linkBfs.head? with
    | none => throw .ensure
    | some front => do
        let so ← getObject front
        ensure so.isMainObject
        linkBfs.forM (mapInitialObject above)
        modify fun s => { s with
          runtimeTlsMap.initialLimit := s.runtimeTlsMap.initialPtr + 64 }
  else
    linkBfs.forM (mapLaterObject above)

def Scope.appendObject (scope : Scope α) (obj : α) : Scope α :=
  if obj ∈ scope.objects then scope
  else { scope with objects := scope.objects ++ [obj] }

def promoteObject (ld : Loader α) (obj : α) : LoaderM α Unit := do
  let scope := (← get).scopes ld.loadScope
  let so ← getObject obj
  if so.globalRts = 0 ∧ scope.isGlobal then
    modifyObject obj fun so => { so with globalRts := ld.linkRts }
  modify fun s => { s with
    scopes := Function.update s.scopes ld.loadScope (scope.appendObject obj) }

def processStaticRelocations (obj : α) : LoaderM α Unit :=
  modify fun s => { s with relocated := s.relocated ++ [obj] }

def SharedObject.needsRelocation (so : SharedObject α) (linkRts : Nat) : Bool :=
  ¬ so.objectRts < linkRts ∧ so.dynamic ∧ ¬ so.skipRelocation

def relocateObject (ld : Loader α) (obj : α) : LoaderM α Unit := do
  let so ← getObject obj
  if so.needsRelocation ld.linkRts then
    ensure (¬ so.wasLinked)
    processStaticRelocations obj

def linkObjects [Fintype α] (ld : Loader α) (above : Bool) (root : α) : LoaderM α (List α) := do
  let linkBfs ← buildLinkBfs ld root
  buildTlsMaps ld above linkBfs
  linkBfs.forM (promoteObject ld)
  linkBfs.forM (relocateObject ld)
  linkBfs.forM fun obj => modifyObject obj fun so => { so with wasLinked := true }
  return linkBfs

/-- `_scheduleInit`: appends the object to the queue after the dependencies that are
not scheduled yet. -/
def scheduleInit : Nat → α → List α → LoaderM α (List α)
  | 0, _, _ => throw .outOfFuel
  | fuel + 1, obj, initQueue => do
      let so ← getObject obj
      ensure (¬ so.onInitStack)
      modifyObject obj fun so => { so with onInitStack := true }
      ensure (¬ so.scheduledForInit)
      modifyObject obj fun so => { so with scheduledForInit := true }
      let initQueue ← so.dependencies.foldlM (fun initQueue dep => do
        let so ← getObject dep
        if so.scheduledForInit then return initQueue
        else scheduleInit fuel dep initQueue) initQueue
      modifyObject obj fun so => { so with onInitStack := false }
      return initQueue ++ [obj]

def initFuncPtrSize : Nat := 8

def doInitialize (obj : α) : LoaderM α Unit := do
  let so ← getObject obj
  ensure so.wasLinked
  ensure (¬ so.wasInitialized)
  modify fun s => { s with initialized := s.initialized ++ [obj] }
  ensure (so.initArraySize % initFuncPtrSize = 0)
  modifyObject obj fun so => { so with wasInitialized := true }

def runPreInitArray (mainExecutable : Option α) : LoaderM α Unit :=
  match mainExecutable with
  | none => pure ()
  | some main => do
      let so ← getObject main
      match so.preInitArraySize with
      | none => pure ()
      | some preInitArraySize => do
          ensure so.isMainObject
          ensure (¬ so.wasInitialized)
          ensure (preInitArraySize % initFuncPtrSize = 0)
          modify fun s => { s with preInitialized := s.preInitialized ++ [main] }

def addObjectToDestructQueue (obj : α) : LoaderM α Unit :=
  modify fun s => { s with destructQueue := obj :: s.destructQueue }

def initObject (obj : α) : LoaderM α Unit := do
  let so ← getObject obj
  if ¬ so.wasInitialized then
    if ¬ so.skipInit then
      doInitialize obj
    addObjectToDestructQueue obj

def initObjects [Fintype α] (ld : Loader α) (linkBfs : List α) : LoaderM α Unit := do
  runPreInitArray ld.mainExecutable
  let initQueue ← linkBfs.foldlM (fun initQueue obj => do
    let so ← getObject obj
    if so.scheduledForInit then return initQueue
    else scheduleInit (Fintype.card α + 1) obj initQueue) []
  initQueue.forM initObject

def doDestruct (obj : α) : LoaderM α Unit := do
  let so ← getObject obj
  if so.wasInitialized ∧ ¬ so.wasDestroyed then
    modifyObject obj fun so => { so with wasDestroyed := true }
    ensure (so.finiArraySize % initFuncPtrSize = 0)
    modify fun s => { s with destructed := s.destructed ++ [obj] }

def destructLoop : List α → LoaderM α Unit
  | [] => pure ()
  | top :: rest => do
      modify fun s => { s with destructQueue := rest }
      doDestruct top
      destructLoop rest

def destructObjects : LoaderM α Unit := do
  destructLoop (← get).destructQueue

end Loader

end Mlibc
