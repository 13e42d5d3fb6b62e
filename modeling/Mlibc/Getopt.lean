import Mathlib.Init

/-!
# Short options

The model of `getopt_common` for short options.  An access behind the terminator has no result.
-/

namespace Mlibc.Getopt

abbrev Text := List UInt8

def dash : UInt8 := 45

def colonSign : UInt8 := 58

def plusSign : UInt8 := 43

def questionMark : UInt8 := 63

def charAt (text : Text) (i : Nat) : Option UInt8 := (text ++ [0])[i]?

def strchr : Text → UInt8 → Option Text
  | [], c => if c = 0 then some [] else none
  | head :: rest, c => if head = c then some (head :: rest) else strchr rest c

/-- `argv`, and the variables `optind`, `__optpos`, `optarg` and `optopt`. -/
structure State where
  argv : List Text
  optind : Nat
  optpos : Nat
  optarg : Option Text
  optopt : UInt8
  deriving DecidableEq

def State.start (argv : List Text) : State := ⟨argv, 1, 1, none, 0⟩

def isOptionArg (arg : Text) : Bool :=
  arg.head? = some dash && arg ≠ [dash] && arg ≠ [dash, dash]

def findFrom (property : Text → Bool) (argv : List Text) (start : Nat) : Option Nat :=
  ((argv.drop start).findIdx? property).map (· + start)

def shortOption (optstring : Text) (arg : Text) (s : State) : Option (Option UInt8 × State) := do
  let colon := optstring.head? = some colonSign
  let i := s.optpos
  let c ← charAt arg i
  match strchr optstring c with
  | none =>
    let first ← charAt arg 1
    return (some questionMark, { s with optopt := first, optind := s.optind + 1 })
  | some opt =>
    let suffix ← charAt opt 1
    let following ← charAt arg (i + 1)
    if suffix = colonSign then
      let required := (← charAt opt 2) ≠ colonSign
      if following ≠ 0 then
        return (some c, { s with optarg := some (arg.drop (i + 1)), optind := s.optind + 1 })
      else
        match s.argv[s.optind + 1]? with
        | some next =>
          if required ∧ charAt next 0 ≠ some dash then
            return (some c, { s with optarg := some next, optind := s.optind + 2, optpos := 1 })
          else if required then
            return (some (if colon then colonSign else questionMark),
              { s with optpos := 1, optopt := c })
          else return (some c, { s with optarg := none, optind := s.optind + 1 })
        | none =>
          if required then
            return (some (if colon then colonSign else questionMark),
              { s with optpos := 1, optopt := c })
          else return (some c, { s with optarg := none, optind := s.optind + 1 })
    else if following ≠ 0 then return (some c, { s with optpos := s.optpos + 1 })
    else if c ≠ 0 then return (some c, { s with optind := s.optind + 1 })
    else return (none, { s with optarg := none })

/-- `getopt_common_internal`: the returned character, or none for -1. -/
def getoptCommonInternal (optstring : Text) (posixlyCorrect : Bool) (s : State) :
    Option (Option UInt8 × State) :=
  match s.argv[s.optind]? with
  | none => some (none, { s with optarg := none })
  | some arg =>
    if isOptionArg arg then shortOption optstring arg s
    else if arg = [dash, dash] then some (none, { s with optind := s.optind + 1 })
    else if optstring.head? = some dash then
      some (some 1, { s with optarg := some arg, optind := s.optind + 1 })
    else if optstring.head? = some plusSign ∨ posixlyCorrect = true then
      some (none, { s with optarg := none })
    else
      match findFrom isOptionArg s.argv s.optind with
      | none => some (none, { s with optarg := none })
      | some skip =>
        shortOption optstring (s.argv.getD skip []) { s with optind := skip }

def permute (argv : List Text) (dest src : Nat) : List Text :=
  match argv[src]? with
  | none => argv
  | some word => (argv.eraseIdx src).insertIdx dest word

def permuteTimes (dest src : Nat) : Nat → List Text → List Text
  | 0, argv => argv
  | count + 1, argv => permuteTimes dest src count (permute argv dest src)

def dashed (arg : Text) : Bool := arg.head? = some dash && 2 ≤ arg.length

def getoptCommon (optstring : Text) (posixlyCorrect : Bool) (s : State) :
    Option (Option UInt8 × State) :=
  let s := if s.optind = 0 then State.start s.argv else s
  let skipped := s.optind
  if optstring.head? = some plusSign ∨ optstring.head? = some dash then
    getoptCommonInternal optstring posixlyCorrect s
  else
    match findFrom dashed s.argv s.optind with
    | none => some (none, { s with optarg := none })
    | some resumed => do
        let (ret, next) ←
          getoptCommonInternal optstring posixlyCorrect { s with optind := resumed }
        if skipped < resumed then
          let count := next.optind - resumed
          return (ret, { next with
              argv := permuteTimes skipped (next.optind - 1) count next.argv
              optind := skipped + count })
        else return (ret, next)

end Mlibc.Getopt
