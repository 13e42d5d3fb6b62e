import Mathlib.Logic.Function.Basic
import Mlibc.Postconditions

/-!
# The function `setlocale`

The model of `setlocale`, `applyCategory`, `loadLocale` and `parseCategoryInfo`.  The bytes of the
records, the parsers of the members and the C locale are parameters.
-/

namespace Mlibc.SetLocale

abbrev Text := List Char

/-- The categories in the order of their numbers, without `LC_ALL`. -/
inductive Category where
  | ctype
  | numeric
  | time
  | collate
  | monetary
  | messages
  | paper
  | name
  | address
  | telephone
  | measurement
  | identification
  deriving DecidableEq

namespace Category

def list : List Category :=
  [ctype, numeric, time, collate, monetary, messages, paper, name, address, telephone, measurement,
    identification]

def lcName : Category → Text
  | ctype => "LC_CTYPE".toList
  | numeric => "LC_NUMERIC".toList
  | time => "LC_TIME".toList
  | collate => "LC_COLLATE".toList
  | monetary => "LC_MONETARY".toList
  | messages => "LC_MESSAGES".toList
  | paper => "LC_PAPER".toList
  | name => "LC_NAME".toList
  | address => "LC_ADDRESS".toList
  | telephone => "LC_TELEPHONE".toList
  | measurement => "LC_MEASUREMENT".toList
  | identification => "LC_IDENTIFICATION".toList

/-- The number of a category: `LC_ALL` stands between the first six and the others. -/
def number (cat : Category) : Nat :=
  let index := list.idxOf cat
  if index < 6 then index else index + 1

def magic (cat : Category) : Nat :=
  match cat with
  | collate => 0x20051014 ^^^ cat.number
  | ctype => 0x20090720 ^^^ cat.number
  | _ => 0x20031115 ^^^ cat.number

theorem mem_list (cat : Category) : cat ∈ list := by
  cases cat <;> decide

end Category

/-- `LC_ALL` or one category. -/
inductive Requested where
  | all
  | one (cat : Category)
  deriving DecidableEq

/-- The data of one category. -/
structure CategoryInfo (μ : Type) where
  localeName : Text
  members : Nat → μ

/-- A locale object. -/
structure LocaleInfo (μ : Type) where
  localeName : Text
  categories : Category → CategoryInfo μ

/-- The C locale, the parsers of the members, the record of the locale archive, and those of the
locale files with their locales. -/
structure Locales (μ : Type) where
  cMembers : Category → Nat → μ
  parser : Category → Nat → Option (List UInt8 → μ)
  archiveRecord : Category → Text → Option (List UInt8)
  fileRecords : Category → Text → List (Text × List UInt8)

/-- What is stored for a category: members that are not present remain as they were. -/
structure Record (μ : Type) where
  localeName : Text
  present : Nat → Option μ

/-- `assign_if_present`, and the name. -/
def Record.assign {μ : Type} (record : Record μ) (info : CategoryInfo μ) : CategoryInfo μ where
  localeName := record.localeName
  members i := (record.present i).getD (info.members i)

section Records

variable {μ : Type} (locales : Locales μ)

def uint32At (bytes : List UInt8) (start : Nat) : Nat :=
  ((bytes.drop start).take 4).foldr (fun byte value => byte.toNat + 256 * value) 0

/-- `apply_parsers`, for the member with the number `i`. -/
def applyParser (parser : Option (List UInt8 → μ)) (base : List UInt8) (offsets : List Nat)
    (i : Nat) : Option μ := do
  let start ← offsets[i]?
  let parse ← parser
  let itemSize := match offsets[i + 1]? with
    | none => base.length - start
    | some stop => (stop + 0x100000000 - start) % 0x100000000
  if start > base.length ∨ start + itemSize > base.length then none
  else some (parse ((base.drop start).take itemSize))

def parseCategoryInfo (cat : Category) (name : Text) (bytes : List UInt8) : Option (Record μ) :=
  let elements := uint32At bytes 4
  if bytes.length < 8 ∨ uint32At bytes 0 ≠ cat.magic ∨ bytes.length < 8 + 4 * elements then none
  else
    let offsets := (List.range elements).map fun i => uint32At bytes (8 + 4 * i)
    some ⟨name, fun i => applyParser (locales.parser cat i) bytes offsets i⟩

def findLocaleArchiveRecord (cat : Category) (name : Text) : Option (Record μ) :=
  (locales.archiveRecord cat name).bind (parseCategoryInfo locales cat name)

def findLocaleFileRecord (cat : Category) (name : Text) : Option (Record μ) :=
  (locales.fileRecords cat name).findSome? fun (locale, bytes) =>
    parseCategoryInfo locales cat locale bytes

def findRecord (cat : Category) (name : Text) : Option (Record μ) :=
  match findLocaleArchiveRecord locales cat name with
  | some record => some record
  | none => findLocaleFileRecord locales cat name

def cRecord (cat : Category) : Record μ := ⟨"C".toList, fun i => some (locales.cMembers cat i)⟩

end Records

abbrev Environment := Text → Option Text

inductive Stop where
  | null
  | undefined
  deriving DecidableEq

abbrev LocaleM (μ : Type) := EStateM Stop (LocaleInfo μ)

def IsC (name : Text) : Prop := name = "C".toList ∨ name = "POSIX".toList

instance (name : Text) : Decidable (IsC name) := inferInstanceAs (Decidable (_ ∨ _))

def nonEmpty (value : Option Text) : Option Text :=
  match value with
  | some [] => none
  | other => other

section Composite

def findFirst (character : Char) (str : Text) (start : Nat) : Option Nat :=
  ((str.drop start).findIdx? (· == character)).map (start + ·)

/-- The loop of `parseCompositeLocaleName`: the views of the names, which are none for a view whose
size has wrapped around. -/
def parseCompositeFrom (str : Text) : List Category → Nat → Option (List (Category × Option Text))
  | [], _ => none
  | cat :: categories, offset =>
    let eq := (findFirst '=' str offset).getD str.length
    if (str.drop offset).take (eq - offset) ≠ cat.lcName then none
    else
      let semic := (findFirst ';' str (eq + 1)).getD str.length
      let catValue :=
        if eq + 1 ≤ semic then some ((str.drop (eq + 1)).take (semic - (eq + 1))) else none
      if catValue = some [] then none
      else if semic = str.length then
        if categories = [] then some [(cat, catValue)] else none
      else
        (parseCompositeFrom str categories (semic + 1)).map ((cat, catValue) :: ·)

def parseCompositeLocaleName (str : Text) : Option (Category → Option Text) :=
  (parseCompositeFrom str Category.list 0).map fun names cat =>
    (names.lookup cat).join

end Composite

namespace LocaleInfo

variable {μ : Type}

def assign (info : LocaleInfo μ) (cat : Category) (record : Record μ) : LocaleInfo μ :=
  { info with
    categories := Function.update info.categories cat (record.assign (info.categories cat)) }

def getCategoryLocaleName (info : LocaleInfo μ) : Requested → Text
  | .all => info.localeName
  | .one cat => (info.categories cat).localeName

def compositeName (info : LocaleInfo μ) : Text :=
  List.intercalate [';'] (Category.list.map fun cat =>
    cat.lcName ++ '=' :: (info.categories cat).localeName)

def updateLocaleName (info : LocaleInfo μ) : LocaleInfo μ :=
  { info with
    localeName :=
      if ∀ cat ∈ Category.list,
          (info.categories .ctype).localeName = (info.categories cat).localeName then
        (info.categories .ctype).localeName
      else info.compositeName }

end LocaleInfo

section Functions

variable {μ : Type} (locales : Locales μ)

def cLocale : LocaleInfo μ where
  localeName := "C".toList
  categories cat := ⟨"C".toList, locales.cMembers cat⟩

def applyCategory (cat : Category) (name : Text) : LocaleM μ Bool := do
  if IsC name then
    modify (·.assign cat (cRecord locales cat))
    return true
  else
    match findRecord locales cat name with
    | some record =>
      modify (·.assign cat record)
      return true
    | none => return false

def loadCategory (name : Text) (composite : Option (Category → Option Text))
    (cat : Category) : LocaleM μ Unit := do
  let catName ← (match composite with
    | some names =>
      match names cat with
      | some catName => pure catName
      | none => throw .undefined
    | none => pure name : LocaleM μ Text)
  if IsC catName then modify (·.assign cat (cRecord locales cat))
  else
    match findRecord locales cat catName with
    | some record => modify (·.assign cat record)
    | none => throw .null

/-- `loadLocale` for all categories of the global locale.  Its error makes `setlocale` return
`nullptr`. -/
def loadLocale (name : Text) : LocaleM μ Unit := do
  if IsC name then set (cLocale locales)
  else
    Category.list.forM (loadCategory locales name (parseCompositeLocaleName name))
    modify (·.updateLocaleName)

def setAll (name : Text) : LocaleM μ Text := do
  loadLocale locales name
  modify (·.updateLocaleName)
  return (← get).getCategoryLocaleName .all

def applyEnvCategory (env : Environment) (mask : List Category) (cat : Category) :
    LocaleM μ (List Category) :=
  match nonEmpty (env cat.lcName) with
  | some value => do
      if ← applyCategory locales cat value then return mask ++ [cat]
      else throw .null
  | none => return mask

def applyLang (mask : List Category) (locale : Text) (cat : Category) : LocaleM μ Unit := do
  if cat ∈ mask then return ()
  else if ← applyCategory locales cat locale then return ()
  else throw .null

def langName (env : Environment) : Text := (nonEmpty (env "LANG".toList)).getD "C".toList

def setFromEnvironment (env : Environment) (req : Requested) : LocaleM μ Text := do
  let mask ← Category.list.foldlM (applyEnvCategory locales env) []
  Category.list.forM (applyLang locales mask (langName env))
  modify (·.updateLocaleName)
  return (← get).getCategoryLocaleName req

def setlocale (env : Environment) (req : Requested) (name : Option Text) : LocaleM μ Text := do
  match name with
  | some [] =>
    match nonEmpty (env "LC_ALL".toList), req with
    | some lcAll, .all => setAll locales lcAll
    | _, _ => setFromEnvironment locales env req
  | some name =>
    match req with
    | .all => setAll locales name
    | .one cat =>
      if ← applyCategory locales cat name then
        modify (·.updateLocaleName)
        return (← get).getCategoryLocaleName req
      else throw .null
  | none => return (← get).getCategoryLocaleName req

end Functions

end Mlibc.SetLocale
