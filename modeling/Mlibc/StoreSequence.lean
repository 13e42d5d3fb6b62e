import Mathlib.Data.List.TakeWhile

/-! # Storing contents one after another -/

namespace Mlibc

open Function List

variable {ι ρ κ ε : Type*} [DecidableEq ι] (act : ρ → κ → κ) (content : ι → Except ε ρ)

def Had (key : ι) : Bool := (content key).toBool

def storeAll : List ι → (ι → κ) → Option ε × (ι → κ)
  | [], map => (none, map)
  | key :: keys, map =>
    match content key with
    | .error error => (some error, map)
    | .ok value => storeAll keys (Function.update map key (act value (map key)))

def firstError : List ι → Option ε
  | [] => none
  | key :: keys =>
    match content key with
    | .error error => some error
    | .ok _ => firstError keys

def storedKeys (keys : List ι) : List ι := keys.takeWhile (Had content)

variable {act content} {keys more : List ι} {map : ι → κ} {key : ι} {value : ρ} {error : ε}

omit [DecidableEq ι] in
theorem storedKeys_cons_ok (isOk : content key = .ok value) :
    storedKeys content (key :: keys) = key :: storedKeys content keys :=
  takeWhile_cons_of_pos (by rw [Had, isOk]; rfl)

omit [DecidableEq ι] in
theorem storedKeys_cons_error (isError : content key = .error error) :
    storedKeys content (key :: keys) = [] :=
  takeWhile_cons_of_neg (by rw [Had, isError]; exact Bool.false_ne_true)

theorem storeAll_cons_ok (isOk : content key = .ok value) : storeAll act content (key :: keys) map =
      storeAll act content keys (update map key (act value (map key))) := by
  rw [storeAll, isOk]

theorem storeAll_cons_error (isError : content key = .error error) :
    storeAll act content (key :: keys) map = (some error, map) := by
  rw [storeAll, isError]

theorem storeAll_fst : (storeAll act content keys map).1 = firstError content keys := by
  induction keys generalizing map with
  | nil => rfl
  | cons key keys ih =>
    cases isContent : content key with
    | error error => rw [storeAll_cons_error isContent, firstError, isContent]
    | ok value =>
      rw [storeAll_cons_ok isContent, firstError, isContent]
      exact ih

theorem firstError_of_storeAll {error : Option ε} {after : ι → κ}
    (stored : storeAll act content keys map = (error, after)) :
    firstError content keys = error := by
  rw [← storeAll_fst, stored]

theorem storeAll_append (keys more : List ι) (map : ι → κ) :
    storeAll act content (keys ++ more) map =
      match storeAll act content keys map with
      | (none, after) => storeAll act content more after
      | (some error, after) => (some error, after) := by
  induction keys generalizing map with
  | nil => rfl
  | cons key keys ih =>
    cases isContent : content key with
    | error error =>
      rw [cons_append, storeAll_cons_error isContent, storeAll_cons_error isContent]
    | ok value =>
      rw [cons_append, storeAll_cons_ok isContent, storeAll_cons_ok isContent]
      exact ih (update map key (act value (map key)))

theorem storeAll_of_not_mem (unstored : key ∉ storedKeys content keys) :
    (storeAll act content keys map).2 key = map key := by
  induction keys generalizing map with
  | nil => rfl
  | cons first keys ih =>
    cases isContent : content first with
    | error error => rw [storeAll_cons_error isContent]
    | ok value =>
      rw [storedKeys_cons_ok isContent, mem_cons, not_or] at unstored
      rw [storeAll_cons_ok isContent, ih unstored.2, update_of_ne unstored.1]

theorem storeAll_of_mem (distinct : keys.Nodup) (stored : key ∈ storedKeys content keys) :
    (content key).map (act · (map key)) = .ok ((storeAll act content keys map).2 key) := by
  induction keys generalizing map with
  | nil => cases stored
  | cons first keys ih =>
    obtain ⟨notAgain, distinct⟩ := nodup_cons.mp distinct
    cases isContent : content first with
    | error error =>
      rw [storedKeys_cons_error isContent] at stored
      cases stored
    | ok value =>
      rw [storeAll_cons_ok isContent]
      rw [storedKeys_cons_ok isContent, mem_cons] at stored
      by_cases same : key = first
      · subst same
        have later : key ∉ storedKeys content keys :=
          fun mem => notAgain (( takeWhile_prefix _).subset mem)
        rw [storeAll_of_not_mem later, update_self, isContent]
        rfl
      · rw [← ih distinct (stored.resolve_left same), update_of_ne same]

theorem storeAll_eq_iff (distinct : keys.Nodup) : (storeAll act content keys map).2 key = map key ↔
      (key ∈ storedKeys content keys → (content key).map (act · (map key)) = .ok (map key)) := by
  by_cases stored : key ∈ storedKeys content keys
  · have isStored : (content key).map (act · (map key)) =
        .ok ((storeAll act content keys map).2 key) := storeAll_of_mem distinct stored
    rw [isStored, Except.ok.injEq]
    exact ⟨fun same _ => same, fun same => same stored⟩
  · exact ⟨fun _ impossible => absurd impossible stored, fun _ => storeAll_of_not_mem stored⟩

omit [DecidableEq ι] in
theorem storedKeys_of_firstError (noError : firstError content keys = none) :
    storedKeys content keys = keys := by
  induction keys with
  | nil => rfl
  | cons key keys ih =>
    cases isContent : content key with
    | error error =>
      rw [firstError, isContent] at noError
      cases noError
    | ok value =>
      rw [firstError, isContent] at noError
      rw [storedKeys_cons_ok isContent, ih noError]

omit [DecidableEq ι] in
theorem firstError_of_ok (allOk : ∀ key ∈ keys, ∃ value, content key = .ok value) :
    firstError content keys = none := by
  induction keys with
  | nil => rfl
  | cons key keys ih =>
    obtain ⟨value, isOk⟩ := allOk key mem_cons_self
    rw [firstError, isOk]
    exact ih fun other mem => allOk other (mem_cons_of_mem _ mem)

theorem storeAll_all {values : ι → κ} (distinct : keys.Nodup)
    (allOk : ∀ key, (content key).map (act · (map key)) = .ok (values key))
    (allKeys : ∀ key, key ∈ keys) : storeAll act content keys map = (none, values) := by
  have noError : firstError content keys = none := by
    refine firstError_of_ok fun key _ => ?_
    cases isContent : content key with
    | error error => cases isContent ▸ allOk key
    | ok value => exact ⟨value, rfl⟩
  apply Prod.ext
  · rw [storeAll_fst, noError]
  ext key
  have stored : key ∈ storedKeys content keys := by
    rw [storedKeys_of_firstError noError]
    exact allKeys key
  have isStored : _ = Except.ok ((storeAll act content keys map).2 key) :=
    storeAll_of_mem distinct stored
  rw [allOk, Except.ok.injEq] at isStored
  exact isStored.symm

end Mlibc
