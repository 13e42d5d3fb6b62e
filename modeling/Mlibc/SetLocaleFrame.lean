import Mlibc.SetLocale
import Mlibc.StoreSequence

/-! # What `setlocale` changes -/

namespace Mlibc.SetLocale

open List

variable {μ : Type} (locales : Locales μ)

section Contents

def plainContent (name : Text) (cat : Category) : Except Stop (Record μ) :=
  if IsC name then .ok (cRecord locales cat)
  else
    match findRecord locales cat name with
    | some record => .ok record
    | none => .error .null

/-- The record that `loadLocale` stores for a category, for a plain or a composite name. -/
def namedContent (name : Text) (cat : Category) : Except Stop (Record μ) :=
  if IsC name then .ok (cRecord locales cat)
  else
    match parseCompositeLocaleName name with
    | some names =>
      match names cat with
      | some catName => plainContent locales catName cat
      | none => .error .undefined
    | none => plainContent locales name cat

def variableName (env : Environment) (cat : Category) : Text :=
  (nonEmpty (env cat.lcName)).getD (langName env)

def variableOrder (env : Environment) : List Category :=
  (Category.list.filter fun cat => (nonEmpty (env cat.lcName)).isSome) ++
    Category.list.filter fun cat => !(nonEmpty (env cat.lcName)).isSome

def environmentContent (env : Environment) (cat : Category) : Except Stop (Record μ) :=
  match nonEmpty (env "LC_ALL".toList) with
  | some lcAll => namedContent locales lcAll cat
  | none => plainContent locales (variableName env cat) cat

def loading (env : Environment) (req : Requested) :
    Option Text → List Category × (Category → Except Stop (Record μ))
  | none => ([], fun cat => .ok (cRecord locales cat))
  | some [] =>
    match nonEmpty (env "LC_ALL".toList), req with
    | some lcAll, .all => (Category.list, namedContent locales lcAll)
    | _, _ =>
      (variableOrder env, fun cat =>
        plainContent locales (variableName env cat) cat)
  | some name =>
    match req with
    | .all => (Category.list, namedContent locales name)
    | .one cat => ([cat], plainContent locales name)

end Contents

section Saves

variable {locales} {content : Category → Except Stop (Record μ)} {α β : Type}
  {keys more : List Category} {returns : α → Prop} {prog : LocaleM μ α}
  {info : LocaleInfo μ} {cat : Category} {name : Text}

def Saves (content : Category → Except Stop (Record μ)) (keys : List Category)
    (returns : α → Prop) (prog : LocaleM μ α) (info : LocaleInfo μ) : Prop :=
  Ends prog info (fun value after =>
      returns value ∧
        storeAll Record.assign content keys info.categories = (none, after.categories))
    (fun stop after =>
      storeAll Record.assign content keys info.categories = (some stop, after.categories))

theorem Saves.pure {value : α} (ret : returns value) :
    Saves content [] returns (pure value) info := by
  exact ⟨ret, rfl⟩

theorem Saves.bind {next : α → LocaleM μ β} {returns' : β → Prop}
    (saves : Saves content keys returns prog info)
    (goesOn : ∀ value after, returns value → Saves content more returns' (next value) after) :
    Saves content (keys ++ more) returns' (prog >>= next) info := by
  rw [Saves, ends_bind]
  apply Ends.mono saves
  · rintro value after ⟨ret, stored⟩
    apply (goesOn value after ret).mono
    · rintro result last ⟨isResult, storedMore⟩
      refine ⟨isResult, ?_⟩
      rw [storeAll_append, stored]
      exact storedMore
    · intro stop last storedMore
      rw [storeAll_append, stored]
      exact storedMore
  · intro stop after stored
    rw [storeAll_append, stored]

theorem Saves.then {next : α → LocaleM μ β} (saves : Saves content keys returns prog info)
    (goesOn : ∀ value after, returns value → Saves content [] (fun _ => True) (next value) after) :
    Saves content keys (fun _ => True) (prog >>= next) info := by
  have both := saves.bind goesOn
  rwa [append_nil] at both

theorem saves_updateLocaleName (req : Requested) : Saves content [] (fun _ => True) (do
      modify (·.updateLocaleName)
      return (← get).getCategoryLocaleName req) info := by
  exact ⟨trivial, rfl⟩

theorem storeAll_one {record : Record μ} (isContent : content cat = .ok record) :
    storeAll Record.assign content [cat] info.categories =
      (none, (info.assign cat record).categories) := by
  rw [storeAll_cons_ok isContent]
  rfl

theorem storeAll_one_error {stop : Stop} (isContent : content cat = .error stop) :
    storeAll Record.assign content [cat] info.categories = (some stop, info.categories) :=
  storeAll_cons_error isContent

theorem ends_applyCategory {returns : Bool → LocaleInfo μ → Prop}
    {fails : Stop → LocaleInfo μ → Prop}
    (applied : ∀ record, plainContent locales name cat = .ok record →
      returns true (info.assign cat record))
    (failed : plainContent locales name cat = .error .null → returns false info) :
    Ends (applyCategory locales cat name) info returns fails := by
  unfold plainContent at applied failed
  rw [applyCategory, ends_ite]
  constructor
  · intro isC
    rw [if_pos isC] at applied
    exact applied _ rfl
  intro notC
  rw [if_neg notC] at applied failed
  cases found : findRecord locales cat name with
  | some value =>
    rw [found] at applied
    exact applied value rfl
  | none =>
    rw [found] at failed
    exact failed rfl

theorem saves_applyCategory {value : α} (ret : returns value)
    (isContent : content cat = plainContent locales name cat) :
    Saves content [cat] returns (do
      if ← applyCategory locales cat name then return value else throw .null) info := by
  rw [Saves, ends_bind]
  apply ends_applyCategory
  · intro stored isStored
    exact ⟨ret, storeAll_one (isContent.trans isStored)⟩
  · intro isError
    exact storeAll_one_error (isContent.trans isError)

theorem saves_loadCategory : Saves (namedContent locales name) [cat] (fun _ => True)
      (loadCategory locales name (parseCompositeLocaleName name) cat) info := by
  have plain : ∀ catName, namedContent locales name cat = plainContent locales catName cat →
      Saves (namedContent locales name) [cat] (fun _ => True) (do
        if IsC catName then modify (·.assign cat (cRecord locales cat))
        else
          match findRecord locales cat catName with
          | some record => modify (·.assign cat record)
          | none => throw .null) info := by
    intro catName isContent
    unfold plainContent at isContent
    rw [Saves, ends_ite]
    constructor
    · intro isC
      rw [if_pos isC] at isContent
      exact ⟨trivial, storeAll_one isContent⟩
    intro notC
    rw [if_neg notC] at isContent
    cases found : findRecord locales cat catName with
    | some value =>
      rw [found] at isContent
      exact ⟨trivial, storeAll_one isContent⟩
    | none =>
      rw [found] at isContent
      exact storeAll_one_error isContent
  have isNamed : namedContent locales name cat =
      match parseCompositeLocaleName name with
      | some names =>
        match names cat with
        | some catName => plainContent locales catName cat
        | none => .error .undefined
      | none => plainContent locales name cat := by
    by_cases isC : IsC name
    · have single : parseCompositeLocaleName name = none := by
        rcases isC with rfl | rfl <;> rfl
      rw [single, namedContent, if_pos isC, plainContent, if_pos isC]
    · exact if_neg isC
  unfold loadCategory
  cases composite : parseCompositeLocaleName name with
  | none =>
    rw [composite] at isNamed
    exact plain name isNamed
  | some names =>
    rw [composite] at isNamed
    cases isName : names cat with
    | some catName =>
      simp only [isName] at isNamed ⊢
      exact plain catName isNamed
    | none =>
      simp only [isName] at isNamed ⊢
      exact storeAll_one_error isNamed

theorem saves_forM {body : Category → LocaleM μ Unit} (stores : Category → Bool)
    (each : ∀ cat info, Saves content (if stores cat then [cat] else [])
      (fun _ => True) (body cat) info) :
    Saves content (keys.filter stores) (fun _ => True) (keys.forM body) info := by
  induction keys generalizing info with
  | nil => exact .pure trivial
  | cons cat keys ih =>
    have both : Saves content
        ((if stores cat then [cat] else []) ++ keys.filter stores) (fun _ => True)
        (body cat >>= fun _ => keys.forM body) info :=
      (each cat info).bind fun _ _ _ => ih
    rw [filter_cons]
    split_ifs at both ⊢ with stored
    · exact both
    · exact both

theorem saves_applyEnvCategories (env : Environment) (mask : List Category) :
    Saves (fun cat => plainContent locales (variableName env cat) cat)
      (keys.filter fun cat => (nonEmpty (env cat.lcName)).isSome)
      (fun result => result = mask ++ keys.filter fun cat => (nonEmpty (env cat.lcName)).isSome)
      (keys.foldlM (applyEnvCategory locales env) mask) info := by
  induction keys generalizing mask info with
  | nil => exact .pure (append_nil _).symm
  | cons cat keys ih =>
    rw [foldlM_cons]
    cases isValue : nonEmpty (env cat.lcName) with
    | none =>
      rw [filter_cons_of_neg (by rw [isValue]; exact Bool.false_ne_true), applyEnvCategory, isValue]
      exact ih mask
    | some value =>
      rw [filter_cons_of_pos (by rw [isValue]; rfl), applyEnvCategory, isValue]
      have first : Saves (fun cat =>
          plainContent locales (variableName env cat) cat) [cat]
          (fun result => result = mask ++ [cat]) (do
            if ← applyCategory locales cat value then return mask ++ [cat]
            else throw .null) info := by
        apply saves_applyCategory
        · rfl
        · rw [variableName, isValue]
          rfl
      apply first.bind
      rintro _ after rfl
      have later : Saves _ _ _ (keys.foldlM (applyEnvCategory locales env) (mask ++ [cat])) after :=
        ih (mask ++ [cat])
      rwa [append_assoc, singleton_append] at later

theorem saves_setAll (name : Text) :
    Saves (namedContent locales name) Category.list (fun _ => True) (setAll locales name) info := by
  have load : Saves (namedContent locales name) Category.list (fun _ => True)
      (loadLocale locales name) info := by
    rw [loadLocale]
    by_cases isC : IsC name
    · rw [if_pos isC]
      have isStored : storeAll Record.assign (namedContent locales name) Category.list
          info.categories = (none, (cLocale locales).categories) := by
        apply storeAll_all (by decide) _ Category.mem_list
        intro cat
        rw [namedContent, if_pos isC]
        rfl
      exact ⟨trivial, isStored⟩
    rw [if_neg isC]
    have loop : Saves (namedContent locales name) (Category.list.filter fun _ => true)
        (fun _ => True)
        (Category.list.forM (loadCategory locales name (parseCompositeLocaleName name)))
        info := by
      apply saves_forM
      intro cat info
      exact saves_loadCategory
    exact loop.then fun _ after _ => ⟨trivial, rfl⟩
  exact load.then fun _ after _ => saves_updateLocaleName .all

theorem saves_setFromEnvironment (env : Environment) (req : Requested) :
    Saves (fun cat => plainContent locales (variableName env cat) cat)
      (variableOrder env) (fun _ => True) (setFromEnvironment locales env req) info := by
  apply (saves_applyEnvCategories env []).bind
  rintro mask after isMask
  rw [nil_append] at isMask
  have lang : Saves (fun cat => plainContent locales (variableName env cat) cat)
      (Category.list.filter fun cat => !(nonEmpty (env cat.lcName)).isSome)
      (fun _ => True) (Category.list.forM (applyLang locales mask (langName env))) after := by
    apply saves_forM
    intro cat info
    have inMask : cat ∈ mask ↔ (nonEmpty (env cat.lcName)).isSome = true := by
      rw [isMask, mem_filter]
      exact and_iff_right (Category.mem_list cat)
    rw [applyLang]
    cases isValue : nonEmpty (env cat.lcName) with
    | some value =>
      rw [if_pos (inMask.mpr (by rw [isValue]; rfl))]
      exact .pure trivial
    | none =>
      have unmasked : cat ∉ mask := by
        intro mem
        have isSome := inMask.mp mem
        rw [isValue] at isSome
        cases isSome
      rw [if_neg unmasked]
      apply saves_applyCategory
      · trivial
      · rw [variableName, isValue]
        rfl
  exact lang.then fun _ last _ => saves_updateLocaleName req

theorem saves_setlocale (env : Environment) (req : Requested) (name : Option Text) :
    Saves (loading locales env req name).2 (loading locales env req name).1
      (fun _ => True) (setlocale locales env req name) info := by
  rcases name with _ | (_ | ⟨first, rest⟩)
  · exact ⟨trivial, rfl⟩
  · unfold setlocale loading
    cases nonEmpty (env "LC_ALL".toList) with
    | none => exact saves_setFromEnvironment env req
    | some lcAll =>
      cases req with
      | all => exact saves_setAll lcAll
      | one cat => exact saves_setFromEnvironment env (.one cat)
  cases req with
  | all => exact saves_setAll (first :: rest)
  | one cat =>
    change Ends (applyCategory locales cat (first :: rest) >>= _) info _ _
    rw [ends_bind]
    apply ends_applyCategory
    · intro value isValue
      exact ⟨trivial, storeAll_one isValue⟩
    · intro isError
      exact storeAll_one_error isError

end Saves

section Frame

variable {locales} {env : Environment} {req : Requested} {name : Option Text} {info : LocaleInfo μ}

def Requested.Includes : Requested → Category → Prop
  | .all, _ => True
  | .one cat, other => other = cat

/-- Other categories are left alone, the requested ones come from the environment for the empty
name, and nothing is changed on failure. -/
def Confined (locales : Locales μ) (env : Environment) (req : Requested)
    (name : Option Text) (info : LocaleInfo μ) : Prop :=
  Ends (setlocale locales env req name) info (fun _ after =>
      (∀ cat, ¬ req.Includes cat → after.categories cat = info.categories cat) ∧
      (name = some [] → ∀ cat, req.Includes cat →
        (environmentContent locales env cat).map (·.assign (info.categories cat)) =
          .ok (after.categories cat)))
    (fun stop after => stop = .null ∧ ∀ cat, after.categories cat = info.categories cat)

/-- What a call loads besides, or before it fails, is there already, the requested contents are
those of the environment, and no name is undefined. -/
structure Harmless (locales : Locales μ) (env : Environment) (req : Requested)
    (name : Option Text) (info : LocaleInfo μ) : Prop where
  defined : firstError (loading locales env req name).2
    (loading locales env req name).1 ≠ some .undefined
  others : ∀ cat ∈ storedKeys (loading locales env req name).2 (loading locales env req name).1,
    ¬ req.Includes cat ∨ firstError (loading locales env req name).2
          (loading locales env req name).1 = some .null →
      ((loading locales env req name).2 cat).map (·.assign (info.categories cat)) =
        .ok (info.categories cat)
  environment : name = some [] → firstError (loading locales env req name).2
      (loading locales env req name).1 = none →
    ∀ cat, req.Includes cat →
      (environmentContent locales env cat).map (·.assign (info.categories cat)) =
        ((loading locales env req name).2 cat).map (·.assign (info.categories cat))

theorem mem_loading_empty (cat : Category) : cat ∈ (loading locales env req (some [])).1 := by
  have inOrder : cat ∈ variableOrder env := by
    rw [variableOrder, mem_append, mem_filter, mem_filter]
    cases (nonEmpty (env cat.lcName)).isSome with
    | true => exact .inl ⟨Category.mem_list cat, rfl⟩
    | false => exact .inr ⟨Category.mem_list cat, rfl⟩
  unfold loading
  cases nonEmpty (env "LC_ALL".toList) with
  | none => exact inOrder
  | some lcAll =>
    cases req with
    | all => exact Category.mem_list cat
    | one _ => exact inOrder

theorem nodup_loading : (loading locales env req name).1.Nodup := by
  have distinct : Category.list.Nodup := by decide
  have inOrder : (variableOrder env).Nodup := by
    refine nodup_append.mpr ⟨distinct.filter _, distinct.filter _, ?_⟩
    rintro cat mem _ memToo rfl
    rw [mem_filter] at mem memToo
    simp [mem.2] at memToo
  unfold loading
  split
  · exact Pairwise.nil
  · split
    · exact distinct
    · exact inOrder
  · split
    · exact distinct
    · exact pairwise_singleton _ _

end Frame

/-- A German locale, and a Swiss one with a file for `LC_CTYPE` only. -/
def twoLocales : Locales UInt8 where
  cMembers := fun _ _ => 0
  parser := fun _ i => if i = 0 then some (·.headD 0) else none
  archiveRecord := fun _ _ => none
  fileRecords := fun cat name =>
    let bytes := fun member => [UInt8.ofNat cat.magic, UInt8.ofNat (cat.magic / 256),
      UInt8.ofNat (cat.magic / 65536), 32, 1, 0, 0, 0, 12, 0, 0, 0, member]
    if name = "de_DE".toList then [(name, bytes 1)]
    else if name = "de_CH".toList ∧ cat = .ctype then [(name, bytes 2)]
    else []

end Mlibc.SetLocale
