import Mlibc.Errno
import Mlibc.TransitionSystem

/-!
# The environment

The model of `getenv`, `putenv`, `setenv`, `unsetenv` and `clearenv`.
-/

namespace Mlibc.Environment

abbrev Text := List UInt8

def equalsSign : UInt8 := 61

def findFirst (view : Text) : Option Nat := view.findIdx? (· == equalsSign)

inductive Fault where
  | ensure
  | bounds
  deriving DecidableEq

/-- The value of `environ`: an array of the program with a null pointer at its end, or the
storage of the vector. -/
inductive Pointer where
  | array (strs : List Text)
  | storage (number : Nat)
  deriving DecidableEq

/-- The vector of the library, with the number of its storage. -/
structure PointerVector where
  storage : Nat
  elements : List (Option Text)

namespace PointerVector

def data (vector : PointerVector) : Pointer := .storage vector.storage

def clear (vector : PointerVector) : PointerVector := { vector with elements := [] }

def resize (moves : Nat → Nat → Bool) (vector : PointerVector) (elements : List (Option Text)) :
    PointerVector where
  storage :=
    if moves vector.storage elements.length then vector.storage + 1 else vector.storage
  elements := elements

def push (moves : Nat → Nat → Bool) (vector : PointerVector) (pointer : Option Text) :
    PointerVector :=
  vector.resize moves (vector.elements ++ [pointer])

def pop (moves : Nat → Nat → Bool) (vector : PointerVector) : PointerVector :=
  vector.resize moves vector.elements.dropLast

def setBack (vector : PointerVector) (pointer : Option Text) : PointerVector :=
  { vector with elements := vector.elements.set (vector.elements.length - 1) pointer }

def swap (vector : PointerVector) (first second : Nat) : Except Fault PointerVector :=
  match vector.elements[first]?, vector.elements[second]? with
  | some firstPtr, some secondPtr =>
    .ok { vector with
      elements := (vector.elements.set first secondPtr).set second firstPtr }
  | _, _ => .error .bounds

end PointerVector

/-- `environ` and the vector behind it. -/
structure Environ where
  environ : Pointer
  vector : PointerVector

def Environ.memory (env : Environ) : Except Fault (List (Option Text)) :=
  match env.environ with
  | .array strs => .ok (strs.map some ++ [none])
  | .storage number =>
    if number = env.vector.storage then .ok env.vector.elements else .error .bounds

def ensure (cond : Prop) [Decidable cond] : Except Fault Unit :=
  if cond then .ok () else .error .ensure

def findEnvironIndex (name : Text) : List (Option Text) → Except Fault (Option Nat)
  | [] => .error .bounds
  | none :: _ => .ok none
  | some view :: rest =>
    match findFirst view with
    | none => (findEnvironIndex name rest).map (Option.map (· + 1))
    | some s =>
      if view.take s = name then .ok (some 0)
      else (findEnvironIndex name rest).map (Option.map (· + 1))

def getenv (name : Text) (env : Environ) : Except Fault (Option Text) := do
  let memory ← env.memory
  match ← findEnvironIndex name memory with
  | none => return none
  | some k =>
    match memory[k]? with
    | some (some view) =>
      match findFirst view with
      | none => throw .ensure
      | some s => return some (view.drop (s + 1))
    | _ => throw .bounds

section Mutation

variable (moves : Nat → Nat → Bool)

def copyPointers : List (Option Text) → PointerVector → Except Fault PointerVector
  | [], _ => .error .bounds
  | none :: _, vector => .ok vector
  | some str :: rest, vector => copyPointers rest (vector.push moves (some str))

def updateVector (env : Environ) : Except Fault Environ :=
  if env.environ = env.vector.data then .ok env
  else do
    let memory ← env.memory
    let copied ← copyPointers moves memory env.vector.clear
    let vector := copied.push moves none
    return { environ := vector.data, vector }

def assignVariable (name str : Text) (overwrite : Bool) (env : Environ) : Except Fault Environ := do
  ensure (env.environ = env.vector.data)
  let memory ← env.memory
  match ← findEnvironIndex name memory with
  | some k =>
    let vector :=
      if overwrite then { env.vector with elements := env.vector.elements.set k (some str) }
      else env.vector
    return { environ := vector.data, vector }
  | none =>
    ensure (env.vector.elements.getLast? = some none)
    let vector := (env.vector.setBack (some str)).push moves none
    return { environ := vector.data, vector }

def unassignVariable (name : Text) (env : Environ) : Except Fault Environ := do
  ensure (env.environ = env.vector.data)
  let memory ← env.memory
  match ← findEnvironIndex name memory with
  | none => return env
  | some k =>
    ensure (2 ≤ env.vector.elements.length ∧ env.vector.elements.getLast? = some none)
    let swapped ← env.vector.swap k (env.vector.elements.length - 2)
    let vector := (swapped.pop moves).setBack none
    return { environ := vector.data, vector }

def putenv (str : Text) (env : Environ) : Except Fault Environ := do
  match findFirst str with
  | none => unassignVariable moves str (← updateVector moves env)
  | some s => assignVariable moves (str.take s) str true (← updateVector moves env)

def setenv (name value : Text) (overwrite : Bool) (env : Environ) :
    Except Fault (Option Errno × Environ) := do
  match findFirst name with
  | some _ => return (some .einval, env)
  | none =>
    let str := name ++ equalsSign :: value
    return (none, ← assignVariable moves name str overwrite (← updateVector moves env))

def unsetenv (name : Text) (env : Environ) : Except Fault Environ := do
  unassignVariable moves name (← updateVector moves env)

def clearenv (env : Environ) : Except Fault Environ :=
  let _vector := env.vector.clear
  updateVector moves env

end Mutation

/-- The calls of a program, and assignments to `environ`. -/
inductive Call where
  | setenv (name value : Text) (overwrite : Bool)
  | putenv (str : Text)
  | unsetenv (name : Text)
  | clearenv
  | assign (strs : List Text)
  deriving DecidableEq

def execute (moves : Nat → Nat → Bool) (env : Environ) : Call → Except Fault Environ
  | .setenv name value overwrite => (setenv moves name value overwrite env).map Prod.snd
  | .putenv str => putenv moves str env
  | .unsetenv name => unsetenv moves name env
  | .clearenv => clearenv moves env
  | .assign strs => .ok { env with environ := .array strs }

/-- The environment of the program, unless there was a fault, and the calls with the latest
first. -/
structure State where
  env : Except Fault Environ
  history : List Call

/-- The program starts with any array, which counts as the first assignment, and makes any
calls. -/
def system (moves : Nat → Nat → Bool) : TransitionSystem State Call where
  initial state := ∃ strs, state = ⟨.ok ⟨.array strs, ⟨0, []⟩⟩, [.assign strs]⟩
  step state call := some ⟨state.env.bind (execute moves · call), call :: state.history⟩

end Mlibc.Environment
