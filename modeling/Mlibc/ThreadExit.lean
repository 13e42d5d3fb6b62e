import Mlibc.ThreadKeys

/-!
# Destructors of thread-specific data

The rounds of `thread_exit` that call the destructors of the keys.
-/

namespace Mlibc.ThreadExit

open ThreadKeys

def destructorIterations : Nat := 8

/-- The turns of the keys, round by round. -/
def schedule : List (Nat × Nat) :=
  (List.range destructorIterations).flatMap fun round =>
    (List.range pthreadKeysMax).map fun key => (round, key)

/-- The loops with what they have still to do: between two keys, or in a call of the destructor of
a key. -/
inductive Phase where
  | scanning (todo : List (Nat × Nat))
  | inside (caller : Nat) (todo : List (Nat × Nat))
  deriving DecidableEq

def Phase.todo : Phase → List (Nat × Nat)
  | .scanning todo => todo
  | .inside _ todo => todo

/-- A key had its turn, and its destructor was called or not; a destructor got or stored a value, or
returned. -/
inductive ExitEvent (Dtor Value : Type*) where
  | turn (round key : Nat) (call : Option (Dtor × Value))
  | got (caller key : Nat) (value : Option Value)
  | stored (caller key : Nat) (value : Option Value)
  | returned (caller : Nat)
  deriving DecidableEq

/-- The tables, the place in the code, and the events with the latest first. -/
structure ExitState (τ Dtor Value : Type*) where
  keys : Keys τ Dtor Value
  phase : Phase
  history : List (ExitEvent Dtor Value)

/-- What the loops or the running destructor do next. -/
inductive ExitLabel (Value : Type*) where
  | scan
  | get (key : Nat)
  | set (key : Nat) (value : Option Value)
  | leave

section Exit

variable {τ Dtor Value : Type*} [DecidableEq τ] (t : τ)

/-- The body of the inner loop, up to the call of the destructor. -/
def scan (s : ExitState τ Dtor Value) (round key : Nat) (todo : List (Nat × Nat)) :
    ExitState τ Dtor Value :=
  match threadKeyGet t key s.keys with
  | (none, keys) => ⟨keys, .scanning todo, .turn round key none :: s.history⟩
  | (some value, keys) =>
    match (keys.globals key).dtor with
    | none => ⟨keys, .scanning todo, .turn round key none :: s.history⟩
    | some dtor => ⟨keys, .inside key todo, .turn round key (some (dtor, value)) :: s.history⟩

/-- `(*self->localKeys)[i].value = nullptr`. -/
def clearValue (key : Nat) (keys : Keys τ Dtor Value) : Keys τ Dtor Value :=
  keys.setLocal t key { keys.localKeys t key with value := none }

def exitStep (s : ExitState τ Dtor Value) (label : ExitLabel Value) :
    Option (ExitState τ Dtor Value) :=
  match s.phase, label with
  | .scanning ((round, key) :: todo), .scan => some (scan t s round key todo)
  | .inside caller _, .get key =>
    match threadKeyGet t key s.keys with
    | (value, keys) =>
      some { s with keys, history := .got caller key value :: s.history }
  | .inside caller _, .set key value =>
    match threadKeySet t key value s.keys with
    | (.ok (), keys) =>
      some { s with keys, history := .stored caller key value :: s.history }
    | (.error _, _) => some s
  | .inside caller todo, .leave =>
    some ⟨clearValue t caller s.keys, .scanning todo, .returned caller :: s.history⟩
  | _, _ => none

def exitSystem (start : Keys τ Dtor Value) :
    TransitionSystem (ExitState τ Dtor Value) (ExitLabel Value) where
  initial s := s = ⟨start, .scanning schedule, []⟩
  step := exitStep t

/-- What `thread_key_get` returns. -/
def reading (keys : Keys τ Dtor Value) (key : Nat) : Option Value :=
  (threadKeyGet t key keys).1

end Exit

section Purpose

variable {Dtor Value : Type*} (start : Nat → Option Value) (dtors : Nat → Option Dtor)

def turns : List (ExitEvent Dtor Value) → List (Nat × Nat)
  | [] => []
  | .turn round key _ :: hist => turns hist ++ [(round, key)]
  | _ :: hist => turns hist

/-- The value that was stored last for the key since its destructor was called, and whether its own
destructor has stored it. -/
def current (key : Nat) : List (ExitEvent Dtor Value) → Option (Bool × Value)
  | [] => (start key).map (false, ·)
  | .turn _ other call :: hist =>
    if other = key ∧ call.isSome then none else current key hist
  | .stored caller other value :: hist =>
    if other = key then value.map (decide (caller = key), ·) else current key hist
  | .got _ _ _ :: hist => current key hist
  | .returned _ :: hist => current key hist

/-- The running destructor has stored a value for its own key. -/
def ownStored : List (ExitEvent Dtor Value) → Bool
  | [] => false
  | .turn _ _ _ :: _ => false
  | .stored caller key _ :: hist => caller = key || ownStored hist
  | .got _ _ _ :: hist => ownStored hist
  | .returned _ :: hist => ownStored hist

/-- At each turn of a key its destructor is called with the value that was stored last for it, and
in the call the key reads as null until a value is stored for it. -/
def Delivered : List (ExitEvent Dtor Value) → Prop
  | [] => True
  | .turn _ key call :: hist =>
    (call = (dtors key).bind fun dtor => (current start key hist).map fun own => (dtor, own.2)) ∧
      Delivered hist
  | .got caller key value :: hist =>
    (caller = key → value = (current start key hist).map Prod.snd) ∧ Delivered hist
  | .stored _ _ _ :: hist => Delivered hist
  | .returned _ :: hist => Delivered hist

/-- No destructor reads its own key before it stores a value for it, and no turn of a key comes
while its own destructor has stored its value. -/
def Careful : List (ExitEvent Dtor Value) → Prop
  | [] => True
  | .turn _ key _ :: hist => (∀ value, current start key hist ≠ some (true, value)) ∧ Careful hist
  | .got caller key _ :: hist => (caller = key → ownStored hist = true) ∧ Careful hist
  | .stored _ _ _ :: hist => Careful hist
  | .returned _ :: hist => Careful hist

end Purpose

end Mlibc.ThreadExit
