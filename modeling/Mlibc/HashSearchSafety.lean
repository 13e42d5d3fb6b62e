import Mathlib.Data.Finset.Card
import Mlibc.HashSearch
import Mlibc.TransitionSystem

/-!
# The hash table is a bounded map

An entry is never behind an unused bucket on the way from the hash of its key.
-/

namespace Mlibc.HashSearch

open RingProbe List

variable {Data : Type}

def Absent (htab : Table Data) (key : List UInt8) : Prop :=
  ∀ i entry, htab.bucket i = some entry → entry.key ≠ key

/-- The only entry with the key is at the distance from the hash, behind used buckets. -/
structure FoundAt (hash : List UInt8 → Nat) (htab : Table Data) (entry : Entry Data)
    (distance : Nat) : Prop where
  within : distance < htab.size
  here : htab.bucket (position htab.size (hash entry.key % htab.size) distance) = some entry
  used : ∀ before < distance,
    htab.bucket (position htab.size (hash entry.key % htab.size) before) ≠ none
  only : ∀ i other, htab.bucket i = some other → other.key = entry.key →
    i = position htab.size (hash entry.key % htab.size) distance

abbrev Table.probe (htab : Table Data) (hash : List UInt8 → Nat) (item : Entry Data) : Nat → Nat :=
  position htab.size (hash item.key % htab.size)

def firstItem (entered : List (Entry Data)) (key : List UInt8) : Option (Entry Data) :=
  entered.find? (·.key = key)

/-- What holds of the table after a sequence of calls, with the items of the successful `ENTER`
calls in their order. -/
structure Sound (hash : List UInt8 → Nat) (size : Nat) (htab : Table Data)
    (entered : List (Entry Data)) : Prop where
  positive : 0 < size
  size_eq : htab.size = size
  length : htab.table.length = htab.size
  filled : htab.filled = htab.table.countP Option.isSome
  distinct : htab.filled = (entered.map Entry.key).toFinset.card
  absent : ∀ key, firstItem entered key = none → Absent htab key
  found : ∀ key entry, firstItem entered key = some entry →
    ∃ distance, FoundAt hash htab entry distance

def Answers (htab : Table Data) (entered : List (Entry Data)) (item : Entry Data) (action : Action)
    (result : Except Failure Nat) (next : Table Data) : Prop :=
  match firstItem entered item.key, action with
  | some entry, _ => ∃ i, result = .ok i ∧ htab.table[i]? = some (some entry) ∧ next = htab
  | none, .find => result = .error .esrch ∧ next = htab
  | none, .enter =>
    if (entered.map Entry.key).toFinset.card < htab.size then
      ∃ i, result = .ok i ∧ htab.table[i]? = some none ∧ next = htab.add i item
    else result = .error .enomem ∧ next = htab

theorem key_of_firstItem {entered : List (Entry Data)} {key : List UInt8} {entry : Entry Data}
    (first : firstItem entered key = some entry) : entry.key = key := by
  have satisfies := find?_some first
  exact of_decide_eq_true satisfies

variable {hash : List UInt8 → Nat} {size fuel : Nat} {htab : Table Data}
  {entered : List (Entry Data)} {item : Entry Data} {action : Action}

section Call

variable (sound : Sound hash size htab entered)

include sound

theorem Sound.start_lt (key : List UInt8) :
    hash key % htab.size < htab.size := by
  apply Nat.mod_lt
  rw [sound.size_eq]
  exact sound.positive

theorem hsearchR_present {entry : Entry Data} (first : firstItem entered item.key = some entry)
    (enough : htab.size ≤ fuel) :
    ∃ i, hsearchR hash fuel item action htab = some (.ok i, htab) ∧
      htab.table[i]? = some (some entry) := by
  obtain ⟨distance, found⟩ := sound.found _ entry first
  have same := key_of_firstItem first
  have startLt := sound.start_lt item.key
  obtain ⟨within, here, used, only⟩ := found
  rw [same] at here used only
  have stops : Stops item.key action
      (htab.bucket (htab.probe hash item distance)) := by
    rw [here]
    exact same
  have passes : ∀ d, 0 ≤ d → d < distance → ¬Stops item.key action
      (htab.bucket (htab.probe hash item d)) := by
    intro d _ dLt stops
    cases holds : htab.bucket (htab.probe hash item d) with
    | none => exact used d dLt holds
    | some other =>
      rw [holds] at stops
      have position_eq := only _ other holds stops
      have distance_eq := position_injective (by omega) within position_eq
      omega
  have scanned := scan_first sound.length startLt (Nat.zero_le distance) within
    (by omega : distance - 0 < fuel) stops passes
  rw [position_zero startLt, here] at scanned
  refine ⟨htab.probe hash item distance, ?_, ?_⟩
  · simp only [hsearchR, scanned]
    rfl
  · rw [bucket_position sound.length startLt, here]

theorem hsearchR_missing (none : firstItem entered item.key = none) (enough : htab.size ≤ fuel) :
    hsearchR hash fuel item .find htab = some (.error .esrch, htab) := by
  have startLt := sound.start_lt item.key
  have absent := sound.absent _ none
  obtain ⟨distance, within, stops, first⟩ | never := exists_first (fun d => Stops item.key .find
    (htab.bucket (htab.probe hash item d))) htab.size
  · have scanned := scan_first sound.length startLt (Nat.zero_le distance) within
      (by omega : distance - 0 < fuel) stops (fun d _ => first d)
    have unused : htab.bucket (htab.probe hash item distance) =
        Option.none := by
      cases holds : htab.bucket (htab.probe hash item distance) with
      | none => rfl
      | some other =>
        rw [holds] at stops
        exact absurd stops (absent _ other holds)
    rw [position_zero startLt, unused] at scanned
    simp only [hsearchR, scanned]
    rfl
  · have scanned := scan_none sound.length startLt (Nat.zero_lt_of_lt startLt)
      (by omega : htab.size - 0 ≤ fuel) (fun d _ => never d)
    rw [position_zero startLt] at scanned
    simp only [hsearchR, scanned]
    rfl

theorem exists_unused (start : Nat) (startLt : start < htab.size) (room : htab.filled ≠ htab.size) :
    ∃ distance < htab.size, htab.bucket (position htab.size start distance) = none ∧
      ∀ before < distance, htab.bucket (position htab.size start before) ≠ none := by
  obtain first | never := exists_first
    (fun d => htab.bucket (position htab.size start d) = none) htab.size
  · exact first
  exfalso
  apply room
  rw [sound.filled, ← sound.length, countP_eq_length]
  intro bucket mem
  obtain ⟨i, within, rfl⟩ := getElem_of_mem mem
  obtain ⟨distance, distanceLt, here⟩ := exists_position startLt (sound.length ▸ within)
  have used := never distance distanceLt
  rw [here, Table.bucket, getD_eq_getElem _ _ within] at used
  exact Option.isSome_iff_ne_none.mpr used

theorem hsearchR_new (none : firstItem entered item.key = none) (enough : htab.size ≤ fuel) :
    (htab.filled = htab.size ∧ hsearchR hash fuel item .enter htab = some (.error .enomem, htab)) ∨
    htab.filled < htab.size ∧ ∃ distance < htab.size,
      htab.bucket (htab.probe hash item distance) = Option.none ∧
      (∀ before < distance, htab.bucket (htab.probe hash item before) ≠ Option.none) ∧
      hsearchR hash fuel item .enter htab = some (.ok (htab.probe hash item distance),
          htab.add (htab.probe hash item distance) item) := by
  have startLt := sound.start_lt item.key
  have absent := sound.absent _ none
  have passes : ∀ d, 0 ≤ d → d < htab.size → ¬Stops item.key .enter
      (htab.bucket (htab.probe hash item d)) := by
    intro d _ _ stops
    cases holds : htab.bucket (htab.probe hash item d) with
    | none =>
      rw [holds] at stops
      cases stops
    | some other =>
      rw [holds] at stops
      exact absent _ other holds stops
  have scanned := scan_none sound.length startLt (Nat.zero_lt_of_lt startLt)
    (by omega : htab.size - 0 ≤ fuel) passes
  rw [position_zero startLt] at scanned
  by_cases full : htab.size = htab.filled
  · refine .inl ⟨full.symm, ?_⟩
    simp only [hsearchR, scanned, exhausted, bind, Option.bind, pure, if_pos full]
  have filledLe : htab.filled ≤ htab.size := by
    rw [sound.filled, ← sound.length]
    exact countP_le_length
  obtain ⟨distance, within, unused, used⟩ :=
    exists_unused sound (hash item.key % htab.size) startLt (Ne.symm full)
  refine .inr ⟨by omega, distance, within, unused, used, ?_⟩
  let grown : Table Data := { htab with filled := htab.filled + 1 }
  have whole : grown.table.length = grown.size := sound.length
  have placed : place grown item fuel (position grown.size (hash item.key % htab.size) 0) = _ :=
    place_first whole startLt (Nat.zero_le distance) (by omega) unused (fun d _ => used d)
  rw [position_zero startLt] at placed
  simp only [hsearchR, scanned, if_neg full]
  rw [placed]
  rfl

theorem hsearchR_answers (enough : htab.size ≤ fuel) :
    ∃ result next, hsearchR hash fuel item action htab = some (result, next) ∧
      Answers htab entered item action result next := by
  unfold Answers
  cases first : firstItem entered item.key with
  | some entry =>
    obtain ⟨i, returns, here⟩ := hsearchR_present sound first enough
    exact ⟨_, _, returns, i, rfl, here, rfl⟩
  | none =>
    cases action with
    | find => exact ⟨_, _, hsearchR_missing sound first enough, rfl, rfl⟩
    | enter =>
      have startLt := sound.start_lt item.key
      obtain ⟨full, returns⟩ | ⟨room, distance, _, unused, _, returns⟩ :=
        hsearchR_new sound first enough
      · refine ⟨_, _, returns, ?_⟩
        rw [← sound.distinct, if_neg (by omega)]
        exact ⟨rfl, rfl⟩
      refine ⟨_, _, returns, ?_⟩
      rw [← sound.distinct, if_pos room]
      exact ⟨_, rfl, by rw [bucket_position sound.length startLt, unused], rfl⟩

end Call

theorem sound_hcreateR (pos : 0 < size) :
    Sound hash size (hcreateR size : Table Data) [] := by
  constructor
  · exact pos
  · rfl
  · exact length_replicate
  · simp [hcreateR, countP_replicate]
  · rfl
  · intro key _ i entry holds
    have unused : (hcreateR size : Table Data).bucket i = none := by
      simp [Table.bucket, hcreateR]
    rw [unused] at holds
    cases holds
  · intro key entry first
    cases first

theorem firstItem_append (key : List UInt8) :
    firstItem (entered ++ [item]) key =
      (firstItem entered key).or (if item.key = key then some item else none) := by
  rw [firstItem, firstItem]
  by_cases same : item.key = key <;> simp [same]

theorem keys_append : ((entered ++ [item]).map Entry.key).toFinset =
    insert item.key (entered.map Entry.key).toFinset := by
  simp

theorem Sound.again (sound : Sound hash size htab entered) {entry : Entry Data}
    (first : firstItem entered item.key = some entry) :
    Sound hash size htab (entered ++ [item]) := by
  have same (key : List UInt8) :
      firstItem (entered ++ [item]) key = firstItem entered key := by
    rw [firstItem_append]
    split_ifs with isKey
    · rw [← isKey, first]
      rfl
    · exact Option.or_none
  have mem : item.key ∈ (entered.map Entry.key).toFinset := by
    rw [mem_toFinset, mem_map]
    exact ⟨entry, mem_of_find?_eq_some first, key_of_firstItem first⟩
  refine ⟨sound.positive, sound.size_eq, sound.length, sound.filled, ?_, ?_, ?_⟩
  · rw [sound.distinct, keys_append, Finset.insert_eq_of_mem mem]
  · intro key none
    rw [same] at none
    exact sound.absent key none
  · intro key entry first
    rw [same] at first
    exact sound.found key entry first

variable {distance : Nat}

theorem FoundAt.add {place : Nat} {entry : Entry Data} (found : FoundAt hash htab entry distance)
    (placeLt : place < htab.table.length)
    (unused : htab.bucket place = none) (apart : item.key ≠ entry.key) :
    FoundAt hash (htab.add place item) entry distance := by
  have stays {i : Nat} (used : htab.bucket i ≠ none) :
      (htab.add place item).bucket i = htab.bucket i := by
    rw [bucket_add placeLt, if_neg]
    rintro rfl
    exact used unused
  constructor
  · exact found.within
  · have used : htab.bucket (position htab.size (hash entry.key % htab.size) distance) ≠ none := by
      rw [found.here]
      exact Option.some_ne_none _
    exact (stays used).trans found.here
  · intro before beforeLt
    have used := found.used before beforeLt
    intro isUnused
    exact used ((stays used).symm.trans isUnused)
  · intro i other holds same
    rw [bucket_add placeLt] at holds
    split_ifs at holds with here
    · cases holds
      exact absurd same apart
    · exact found.only i other holds same

theorem foundAt_new
    (placeLt : htab.probe hash item distance < htab.table.length)
    (within : distance < htab.size)
    (used : ∀ before < distance, htab.bucket (htab.probe hash item before) ≠ none)
    (absent : Absent htab item.key) :
    FoundAt hash (htab.add (htab.probe hash item distance) item) item
      distance := by
  constructor
  · exact within
  · rw [size_add, bucket_add placeLt, if_pos rfl]
  · intro before beforeLt
    rw [bucket_add placeLt]
    split_ifs
    · exact Option.some_ne_none _
    · exact used before beforeLt
  · intro i other holds same
    rw [bucket_add placeLt] at holds
    split_ifs at holds with here
    · exact here
    · exact absurd same (absent i other holds)

theorem Sound.add (sound : Sound hash size htab entered) (none : firstItem entered item.key = none)
    (within : distance < htab.size)
    (unused : htab.bucket (htab.probe hash item distance) = Option.none)
    (used : ∀ before < distance, htab.bucket (htab.probe hash item before) ≠ Option.none) :
    Sound hash size (htab.add (htab.probe hash item distance) item) (entered ++ [item]) := by
  have placeLt : htab.probe hash item distance < htab.table.length := by
    rw [sound.length]
    exact position_lt (Nat.zero_lt_of_lt within) distance
  have absent := sound.absent _ none
  have new : item.key ∉ (entered.map Entry.key).toFinset := by
    rw [mem_toFinset, mem_map]
    rintro ⟨entry, mem, same⟩
    have apart := find?_eq_none.mp none entry mem
    exact apart (decide_eq_true same)
  constructor
  · exact sound.positive
  · exact sound.size_eq
  · change (set _ _ _).length = _
    rw [length_set]
    exact sound.length
  · have empty : htab.table[htab.probe hash item distance] =
        Option.none := by
      rw [Table.bucket, getD_eq_getElem _ _ placeLt] at unused
      exact unused
    change htab.filled + 1 = (set _ _ _).countP _
    rw [countP_set placeLt, empty, sound.filled]
    rfl
  · change htab.filled + 1 = _
    rw [keys_append, Finset.card_insert_of_notMem new, sound.distinct]
  · intro key absentKey i entry holds
    rw [firstItem_append, Option.or_eq_none_iff] at absentKey
    rw [bucket_add placeLt] at holds
    split_ifs at holds with here
    · cases holds
      intro same
      rw [if_pos same] at absentKey
      cases absentKey.2
    · exact sound.absent key absentKey.1 i entry holds
  · intro key entry first
    rw [firstItem_append] at first
    cases before : firstItem entered key with
    | some _ =>
      rw [before] at first
      cases first
      obtain ⟨oldDistance, found⟩ := sound.found key entry before
      refine ⟨oldDistance, found.add placeLt unused ?_⟩
      intro same
      rw [same, key_of_firstItem before, before] at none
      cases none
    | none =>
      rw [before, Option.none_or] at first
      split_ifs at first with isItem
      cases first
      exact ⟨distance, foundAt_new placeLt within used absent⟩

/-- The table, the items of the successful `ENTER` calls, and the returned entries. -/
structure History (Data : Type) where
  htab : Table Data
  entered : List (Entry Data)
  returned : List (Nat × Entry Data)
  deriving DecidableEq

def History.record (hist : History Data) (item : Entry Data) (action : Action)
    (result : Except Failure Nat) (next : Table Data) : History Data :=
  match result with
  | .error _ => { hist with htab := next }
  | .ok i =>
    { htab := next
      entered := if action = .enter then hist.entered ++ [item] else hist.entered
      returned := hist.returned ++ ((next.bucket i).map (i, ·)).toList }

def system (Data : Type) (hash : List UInt8 → Nat) (size : Nat) :
    TransitionSystem (History Data) (Entry Data × Action) where
  initial hist := hist = ⟨hcreateR size, [], []⟩
  step hist call :=
    (hsearchR hash size call.1 call.2 hist.htab).map fun (result, next) =>
      hist.record call.1 call.2 result next

/-- The table is sound, and every entry that was returned is where it was. -/
structure Consistent (hash : List UInt8 → Nat) (size : Nat) (hist : History Data) : Prop where
  sound : Sound hash size hist.htab hist.entered
  kept : ∀ i entry, (i, entry) ∈ hist.returned → hist.htab.table[i]? = some (some entry)

variable {hist : History Data}

theorem Sound.call {item : Entry Data} {action : Action} {result : Except Failure Nat}
    {next : Table Data}
    (sound : Sound hash size hist.htab hist.entered)
    (returns : hsearchR hash size item action hist.htab = some (result, next)) :
    Sound hash size next (hist.record item action result next).entered ∧
    ∀ (i : Nat) (entry : Entry Data), hist.htab.table[i]? = some (some entry) →
      next.table[i]? = some (some entry) := by
  have enough : hist.htab.size ≤ size := sound.size_eq.le
  cases first : firstItem hist.entered item.key with
  | some entry =>
    obtain ⟨i, found, _⟩ := hsearchR_present sound first enough
    rw [returns] at found
    cases found
    refine ⟨?_, fun _ _ here => here⟩
    simp only [History.record]
    split_ifs
    · exact sound.again first
    · exact sound
  | none =>
    cases action with
    | find =>
      have missing := hsearchR_missing sound first enough
      rw [returns] at missing
      cases missing
      exact ⟨sound, fun _ _ here => here⟩
    | enter =>
      obtain ⟨_, full⟩ | ⟨_, distance, within, unused, used, added⟩ :=
        hsearchR_new sound first enough
      · rw [returns] at full
        cases full
        exact ⟨sound, fun _ _ here => here⟩
      rw [returns] at added
      cases added
      refine ⟨sound.add first within unused used, ?_⟩
      intro i entry here
      have apart : position hist.htab.size (hash item.key % hist.htab.size)
          distance ≠ i := by
        rintro rfl
        rw [bucket_position sound.length (sound.start_lt item.key), unused] at here
        cases here
      change (hist.htab.table.set _ _)[i]? = _
      rw [getElem?_set_ne apart, here]

theorem getElem?_of_bucket {htab : Table Data} {i : Nat} {entry : Entry Data}
    (here : htab.bucket i = some entry) : htab.table[i]? = some (some entry) := by
  by_cases within : i < htab.table.length
  · rw [getElem?_of_lt within, here]
  · rw [Table.bucket, getD_eq_default _ _ (not_lt.mp within)] at here
    cases here

theorem consistent_of_reachable (pos : 0 < size)
    (reach : (system Data hash size).Reachable hist) : Consistent hash size hist := by
  apply reach.invariant
  · rintro _ rfl
    exact ⟨sound_hcreateR pos, by simp⟩
  rintro hist ⟨item, action⟩ _ ⟨sound, kept⟩ _ steps
  obtain ⟨⟨result, next⟩, returns, rfl⟩ := Option.map_eq_some_iff.mp steps
  obtain ⟨nextSound, stays⟩ := sound.call returns
  cases result with
  | error failure => exact ⟨nextSound, fun i entry mem => stays i entry (kept i entry mem)⟩
  | ok i =>
    refine ⟨nextSound, ?_⟩
    intro j entry mem
    obtain old | new := mem_append.mp mem
    · exact stays j entry (kept j entry old)
    · obtain ⟨other, here, same⟩ := Option.map_eq_some_iff.mp (Option.mem_toList.mp new)
      cases same
      exact getElem?_of_bucket here

/-- `hsearch_r` is a bounded map: every call ends and answers for the first item with its key. -/
theorem hsearchR_is_bounded_map (hash : List UInt8 → Nat) (size : Nat) (positive : 0 < size)
    {hist : History Data} (reach : (system Data hash size).Reachable hist)
    (item : Entry Data) (action : Action) {fuel : Nat} (enough : size ≤ fuel) :
    hist.htab.size = size ∧
    (∃ result next, hsearchR hash fuel item action hist.htab = some (result, next) ∧
      Answers hist.htab hist.entered item action result next) ∧
    ∀ i entry, (i, entry) ∈ hist.returned → hist.htab.table[i]? = some (some entry) := by
  obtain ⟨sound, kept⟩ := consistent_of_reachable positive reach
  refine ⟨sound.size_eq, hsearchR_answers sound ?_, kept⟩
  rw [sound.size_eq]
  exact enough

def lengthHash (key : List UInt8) : Nat := key.length

theorem hsearchR_is_bounded_map_full :
    ∃ hist : History Nat, (system Nat lengthHash 2).Reachable hist ∧
      hist.entered = [⟨[97], 1⟩, ⟨[98], 2⟩, ⟨[97], 3⟩] ∧
      hist.returned = [(1, ⟨[97], 1⟩), (0, ⟨[98], 2⟩), (1, ⟨[97], 1⟩)] ∧
      ∃ result next, hsearchR lengthHash 2 ⟨[99], 4⟩ .enter hist.htab = some (result, next) ∧
        Answers hist.htab hist.entered ⟨[99], 4⟩ .enter result next := by
  have observed : ∃ hist ∈ (system Nat lengthHash 2).run (fun _ _ => True) ⟨hcreateR 2, [], []⟩
      [(⟨[97], 1⟩, .enter), (⟨[98], 2⟩, .enter), (⟨[97], 3⟩, .enter)],
      hist.entered = [⟨[97], 1⟩, ⟨[98], 2⟩, ⟨[97], 3⟩] ∧
        hist.returned = [(1, ⟨[97], 1⟩), (0, ⟨[98], 2⟩), (1, ⟨[97], 1⟩)] := by
    decide +kernel
  obtain ⟨hist, reach, entered, ret⟩ :=
    TransitionSystem.exists_reachable observed rfl
  exact ⟨hist, reach, entered, ret,
    (hsearchR_is_bounded_map lengthHash 2 (by decide) reach ⟨[99], 4⟩ .enter
      le_rfl).2.1⟩

end Mlibc.HashSearch
