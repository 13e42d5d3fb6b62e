import Mlibc.SetLocaleFrame

/-!
# Loading the categories of a mask

`loadLocale` on a locale object that exists: what is stored before a category is missing remains.
-/

namespace Mlibc.SetLocale

open List

def lcAllMask : BitVec 32 := 0x1FBF

/-- The categories of a mask in the order of its bits. -/
def maskCategories (mask : BitVec 32) : List Category :=
  Category.list.filter fun cat => mask.getLsbD cat.number

inductive LoadError where
  | einval
  | enoent

variable {μ : Type} (locales : Locales μ) (mask : BitVec 32) (name : Text)

def loadCategories : LocaleM μ Unit := do
  (maskCategories mask).forM (loadCategory locales name (parseCompositeLocaleName name))
  modify (·.updateLocaleName)

def loadLocaleMask : LocaleM μ (Option LoadError) := do
  if mask &&& lcAllMask ≠ mask then return some .einval
  else if IsC name ∧ mask = lcAllMask then
    set (cLocale locales)
    return none
  else
    tryCatch (do loadCategories locales mask name; return none) fun stop =>
      if stop = .null then return some .enoent else throw stop

/-- The category has the name and all members of the record. -/
def Replaced (cat : Category) (record : Record μ) (after : CategoryInfo μ) : Prop :=
  after.localeName = record.localeName ∧
    ∀ i, locales.parser cat i ≠ none → record.present i = some (after.members i)

/-- A failed call leaves all categories as they were, and a successful one has replaced those of
the mask and no others. -/
def LoadsAllOrNothing (info : LocaleInfo μ) : Prop :=
  Ends (loadLocaleMask locales mask name) info (fun result after =>
      match result with
      | some _ => after.categories = info.categories
      | none => ∀ cat,
        if cat ∈ maskCategories mask then
          ∃ record, namedContent locales name cat = .ok record ∧
            Replaced locales cat record (after.categories cat)
        else after.categories cat = info.categories cat) Never

/-- Each record that the call would store has all members of its category. -/
def AllComplete : Prop :=
  ∀ cat ∈ maskCategories mask, ∀ record, namedContent locales name cat = .ok record →
    ∀ i, locales.parser cat i ≠ none → record.present i ≠ none

variable {locales mask name} {info : LocaleInfo μ}

theorem saves_loadCategories :
    Saves (namedContent locales name) (maskCategories mask) (fun _ => True)
      (loadCategories locales mask name) info := by
  have loop : Saves (namedContent locales name) ((maskCategories mask).filter fun _ => true)
      (fun _ => True)
      ((maskCategories mask).forM (loadCategory locales name (parseCompositeLocaleName name)))
      info := saves_forM _ fun _ _ => saves_loadCategory
  rw [filter_eq_self.mpr (fun _ _ => rfl)] at loop
  exact loop.then fun _ after _ => ⟨trivial, rfl⟩

theorem ends_tryCatch {σ ε α : Type} {prog : EStateM ε σ α} {handler : ε → EStateM ε σ α}
    {s : σ} {returns : α → σ → Prop} {fails : ε → σ → Prop} :
    Ends (tryCatch prog handler) s returns fails ↔
      Ends prog s returns fun error after => Ends (handler error) after returns fails := by
  simp only [Ends, tryCatch, tryCatchThe, MonadExceptOf.tryCatch, EStateM.tryCatch]
  cases prog s <;> rfl

theorem replaced_assign_iff {cat : Category} {record : Record μ} {before : CategoryInfo μ} :
    Replaced locales cat record (record.assign before) ↔
      ∀ i, locales.parser cat i ≠ none → record.present i ≠ none := by
  refine (and_iff_right rfl).trans (forall_congr' fun i => imp_congr_right fun _ => ?_)
  cases isPresent : record.present i <;> simp [Record.assign, isPresent]

theorem nodup_maskCategories : (maskCategories mask).Nodup :=
  Pairwise.filter _ (by decide : Category.list.Nodup)

section Outcomes

variable {after : LocaleInfo μ}

theorem storedAll (stored : storeAll Record.assign (namedContent locales name)
      (maskCategories mask) info.categories = (none, after.categories)) :
    (∀ cat, if cat ∈ maskCategories mask then
        ∃ record, namedContent locales name cat = .ok record ∧
          Replaced locales cat record (after.categories cat)
      else after.categories cat = info.categories cat) ↔ AllComplete locales mask name := by
  have sameKeys := storedKeys_of_firstError (firstError_of_storeAll stored)
  have content {cat : Category} (mem : cat ∈ maskCategories mask) :
      (namedContent locales name cat).map (·.assign (info.categories cat)) =
        .ok (after.categories cat) := by
    have isStored : _ = Except.ok ((storeAll Record.assign _ _ info.categories).2 cat) :=
      storeAll_of_mem nodup_maskCategories (sameKeys.symm ▸ mem)
    rwa [stored] at isStored
  constructor
  · intro replaced cat mem record isRecord
    have isContent := content mem
    obtain ⟨_, isAlso, isReplaced⟩ := if_pos mem ▸ replaced cat
    rw [isRecord] at isAlso isContent
    cases isAlso
    rw [← Except.ok.inj isContent] at isReplaced
    exact replaced_assign_iff.mp isReplaced
  · intro complete cat
    split_ifs with mem
    · have isContent := content mem
      cases isRecord : namedContent locales name cat with
      | error stop =>
        rw [isRecord] at isContent
        cases isContent
      | ok record =>
        rw [isRecord] at isContent
        rw [← Except.ok.inj isContent]
        exact ⟨record, rfl, replaced_assign_iff.mpr (complete cat mem record isRecord)⟩
    · have unstored : (storeAll Record.assign _ _ info.categories).2 cat = info.categories cat :=
        storeAll_of_not_mem (sameKeys.symm ▸ mem)
      rwa [stored] at unstored

end Outcomes

end Mlibc.SetLocale
