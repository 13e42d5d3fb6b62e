import Mathlib.Init

/-!
# Symbol resolution in one object

The model of `resolveInObject`.  A hash table is an array of 32-bit words.
-/

namespace Mlibc.Symbols

inductive Fault where
  | invalidVersionIndex
  | unnamedSymbol
  | localVersion
  deriving DecidableEq

def extend (signedChar : Bool) (char : UInt8) : UInt32 :=
  if signedChar = true ∧ 128 ≤ char then char.toUInt32 + 0xFFFFFF00 else char.toUInt32

def elf64HashStep (h char : UInt32) : UInt32 :=
  let h := (h <<< 4) + char
  let g := h &&& 0xF0000000
  (if g ≠ 0 then h ^^^ (g >>> 24) else h) &&& 0x0FFFFFFF

def elf64Hash (signedChar : Bool) (str : List UInt8) : UInt32 :=
  str.foldl (fun h char => elf64HashStep h (extend signedChar char)) 0

def gnuHash (signedChar : Bool) (str : List UInt8) : UInt32 :=
  str.foldl (fun h char => (h <<< 5) + h + extend signedChar char) 5381

/-- An entry of the symbol table. -/
structure ElfSym where
  stName : UInt32
  stShndx : UInt16
  stInfo : UInt8
  deriving DecidableEq

def ElfSym.Eligible (symbol : ElfSym) : Prop :=
  symbol.stShndx ≠ 0 ∧
    (symbol.stInfo >>> 4 = 1 ∨ symbol.stInfo >>> 4 = 2 ∨ symbol.stInfo >>> 4 = 10)

instance (symbol : ElfSym) : Decidable symbol.Eligible :=
  inferInstanceAs (Decidable (_ ∧ _))

/-- `SymbolVersion`. -/
structure SymbolVersion where
  isLocal : Bool
  isGlobal : Bool
  isDefault : Bool
  name : List UInt8
  hash : UInt32
  deriving DecidableEq

namespace SymbolVersion

def ofIndex (index : UInt16) : SymbolVersion := ⟨index = 0, index = 1, false, [], 0⟩

def makeDefault (version : SymbolVersion) : SymbolVersion := { version with isDefault := true }

def same (version other : SymbolVersion) : Bool :=
  if version.isLocal || other.isLocal then version.isLocal && other.isLocal
  else if version.isGlobal || other.isGlobal then version.isGlobal && other.isGlobal
  else version.hash == other.hash && version.name == other.name

end SymbolVersion

inductive HashStyle where
  | systemV
  | gnu

/-- The words of the hash table, the symbols, the strings by their offsets, and the versions. -/
structure SharedObject where
  hashStyle : HashStyle
  hashTable : Nat → UInt32
  symbols : Nat → ElfSym
  strings : UInt32 → List UInt8
  versionTable : Option (Nat → UInt16)
  knownVersions : UInt16 → Option SymbolVersion
  definedVersions : List SymbolVersion

namespace SharedObject

variable (obj : SharedObject)

def getString (symbol : ElfSym) : Except Fault (List UInt8) :=
  if symbol.stName ≠ 0 then .ok (obj.strings symbol.stName) else .error .unnamedSymbol

def getSymbolByIndex (index : Nat) : Except Fault (ElfSym × SymbolVersion) :=
  match obj.versionTable with
  | none => .ok (obj.symbols index, (SymbolVersion.ofIndex 1).makeDefault)
  | some versions =>
    let isDefault := versions index &&& 0x8000 = 0
    let verIdx := versions index &&& 0x7FFF
    let known :=
      if verIdx ≠ 0 ∧ verIdx ≠ 1 then obj.knownVersions verIdx
      else some (SymbolVersion.ofIndex verIdx)
    match known with
    | none => .error .invalidVersionIndex
    | some version =>
      .ok (obj.symbols index, if isDefault then version.makeDefault else version)

def numBuckets : UInt32 := obj.hashTable 0

def symbolOffset : UInt32 := obj.hashTable 1

/-- The position of the buckets of a GNU table: behind the header and the bloom filter, whose
words have 64 bits. -/
def gnuBuckets : Nat := 4 + 2 * (obj.hashTable 2).toNat

def gnuChains : Nat := obj.gnuBuckets + obj.numBuckets.toNat

def correctVersion (version : Option SymbolVersion) (candVersion : SymbolVersion) :
    Except Fault Bool :=
  if obj.definedVersions ≠ [] ∧ candVersion.isLocal = true then .error .localVersion
  else
    match version with
    | none => .ok (candVersion.isDefault || candVersion.isGlobal || candVersion.isLocal)
    | some version =>
      .ok ((version.isLocal || version.isGlobal) &&
          (candVersion.isGlobal || candVersion.isDefault || candVersion.isLocal) ||
        version.same candVersion)

def probe (str : List UInt8) (version : Option SymbolVersion) (index : UInt32) :
    Except Fault Bool := do
  let (cand, ver) ← obj.getSymbolByIndex index.toNat
  if cand.Eligible then
    if (← obj.getString cand) = str then obj.correctVersion version ver
    else return false
  else return false

def systemVLoop (probe : UInt32 → Except Fault Bool) :
    Nat → UInt32 → Option (Except Fault (Option UInt32))
  | 0, _ => none
  | fuel + 1, index =>
    if index = 0 then some (.ok none)
    else
      match probe index with
      | .error fault => some (.error fault)
      | .ok true => some (.ok (some index))
      | .ok false =>
        systemVLoop probe fuel (obj.hashTable (2 + obj.numBuckets + index).toNat)

def gnuLoop (probe : UInt32 → Except Fault Bool) (hash : UInt32) :
    Nat → UInt32 → Option (Except Fault (Option UInt32))
  | 0, _ => none
  | fuel + 1, index =>
    let chash := obj.hashTable (obj.gnuChains + (index - obj.symbolOffset).toNat)
    let next :=
      if chash &&& 1 ≠ 0 then some (.ok none) else gnuLoop probe hash fuel (index + 1)
    if chash &&& ~~~1 = hash &&& ~~~1 then
      match probe index with
      | .error fault => some (.error fault)
      | .ok true => some (.ok (some index))
      | .ok false => next
    else next

def resolveInObject (signedChar : Bool) (str : List UInt8) (version : Option SymbolVersion)
    (fuel : Nat) : Option (Except Fault (Option UInt32)) :=
  match obj.hashStyle with
  | .systemV =>
    let bucket := elf64Hash signedChar str % obj.numBuckets
    obj.systemVLoop (obj.probe str version) fuel (obj.hashTable (2 + bucket).toNat)
  | .gnu =>
    let hash := gnuHash signedChar str
    let index := obj.hashTable (obj.gnuBuckets + (hash % obj.numBuckets).toNat)
    if index = 0 then some (.ok none)
    else obj.gnuLoop (obj.probe str version) hash fuel index

end SharedObject

end Mlibc.Symbols
