import Mlibc.Errno
import Mlibc.TransitionSystem

/-!
# Thread-specific data

The keys for thread-specific data of `options/internal/generic/threads.cpp`.
-/

namespace Mlibc.ThreadKeys

@[irreducible]
def pthreadKeysMax : Nat := 1024

/-- `key_global_info`. -/
structure KeyGlobalInfo (Dtor : Type*) where
  inUse : Bool
  dtor : Option Dtor
  generation : UInt64

/-- The value of a key in one thread. -/
structure LocalKey (Value : Type*) where
  value : Option Value
  generation : UInt64

/-- The table `key_globals_` and the tables `localKeys` of the threads. -/
structure Keys (τ Dtor Value : Type*) where
  globals : Nat → KeyGlobalInfo Dtor
  localKeys : τ → Nat → LocalKey Value

def Keys.start (τ Dtor Value : Type*) : Keys τ Dtor Value where
  globals := fun _ => ⟨false, none, 0⟩
  localKeys := fun _ _ => ⟨none, 0⟩

section Calls

variable {τ Dtor Value : Type*} [DecidableEq τ]

def Keys.Valid (keys : Keys τ Dtor Value) (key : Nat) : Prop :=
  key < pthreadKeysMax ∧ (keys.globals key).inUse = true

instance (keys : Keys τ Dtor Value) (key : Nat) : Decidable (keys.Valid key) :=
  inferInstanceAs (Decidable (_ ∧ _))

def Keys.setGlobal (keys : Keys τ Dtor Value) (key : Nat) (info : KeyGlobalInfo Dtor) :
    Keys τ Dtor Value :=
  { keys with globals := Function.update keys.globals key info }

def Keys.setLocal (keys : Keys τ Dtor Value) (t : τ) (key : Nat) (own : LocalKey Value) :
    Keys τ Dtor Value :=
  { keys with
    localKeys := Function.update keys.localKeys t (Function.update (keys.localKeys t) key own) }

def Keys.freeKey (keys : Keys τ Dtor Value) : Option Nat :=
  (List.range pthreadKeysMax).find? fun key => !(keys.globals key).inUse

def threadKeyCreate (destructor : Option Dtor) (keys : Keys τ Dtor Value) :
    Except Errno Nat × Keys τ Dtor Value :=
  match keys.freeKey with
  | none => (.error .eagain, keys)
  | some key =>
    (.ok key, keys.setGlobal key { keys.globals key with inUse := true, dtor := destructor })

def threadKeyDelete (key : Nat) (keys : Keys τ Dtor Value) :
    Except Errno Unit × Keys τ Dtor Value :=
  if keys.Valid key then
    (.ok (), keys.setGlobal key
      { inUse := false, dtor := none, generation := (keys.globals key).generation + 1 })
  else (.error .einval, keys)

def threadKeyGet (t : τ) (key : Nat) (keys : Keys τ Dtor Value) :
    Option Value × Keys τ Dtor Value :=
  if keys.Valid key then
    if (keys.localKeys t key).generation < (keys.globals key).generation then
      (none, keys.setLocal t key ⟨none, (keys.globals key).generation⟩)
    else ((keys.localKeys t key).value, keys)
  else (none, keys)

def threadKeySet (t : τ) (key : Nat) (value : Option Value) (keys : Keys τ Dtor Value) :
    Except Errno Unit × Keys τ Dtor Value :=
  if keys.Valid key then
    (.ok (), keys.setLocal t key ⟨value, (keys.globals key).generation⟩)
  else (.error .einval, keys)

end Calls

/-- The calls of a thread. -/
inductive Call (Dtor Value : Type*) where
  | create (destructor : Option Dtor)
  | delete (key : Nat)
  | get (key : Nat)
  | set (key : Nat) (value : Option Value)

/-- What a call did. -/
inductive Event (τ Value : Type*) where
  | created (key : Nat)
  | deleted (key : Nat)
  | got (t : τ) (key : Nat) (value : Option Value)
  | set (t : τ) (key : Nat) (value : Option Value)
  | failed (errno : Errno)
  deriving DecidableEq

structure State (τ Dtor Value : Type*) where
  keys : Keys τ Dtor Value
  history : List (Event τ Value)

section Runs

variable {τ Dtor Value : Type*} [DecidableEq τ]

def execute (t : τ) (keys : Keys τ Dtor Value) : Call Dtor Value → Event τ Value × Keys τ Dtor Value
  | .create destructor =>
    match threadKeyCreate destructor keys with
    | (.ok key, next) => (.created key, next)
    | (.error errno, next) => (.failed errno, next)
  | .delete key =>
    match threadKeyDelete key keys with
    | (.ok (), next) => (.deleted key, next)
    | (.error errno, next) => (.failed errno, next)
  | .get key =>
    match threadKeyGet t key keys with
    | (value, next) => (.got t key value, next)
  | .set key value =>
    match threadKeySet t key value keys with
    | (.ok (), next) => (.set t key value, next)
    | (.error errno, next) => (.failed errno, next)

def system (τ Dtor Value : Type*) [DecidableEq τ] :
    TransitionSystem (State τ Dtor Value) (τ × Call Dtor Value) where
  initial s := s = ⟨Keys.start τ Dtor Value, []⟩
  step s label :=
    match execute label.1 s.keys label.2 with
    | (event, next) => some ⟨next, event :: s.history⟩

end Runs

end Mlibc.ThreadKeys
