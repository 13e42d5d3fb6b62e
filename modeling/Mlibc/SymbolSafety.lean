import Mlibc.SymbolTables

/-! # Which symbols are found -/

namespace Mlibc.Symbols.SharedObject

open PartialSearch

variable {obj : SharedObject} {signedChar : Bool} {buckets : UInt32 → List UInt32}
  {str : List UInt8} {version : Option SymbolVersion}

/-- The symbol is a definition with the string, and has a correct version. -/
structure Matches (obj : SharedObject) (str : List UInt8)
    (version : Option SymbolVersion) (index : UInt32) : Prop where
  eligible : (obj.symbols index.toNat).Eligible
  string_eq : obj.stringOf index = str
  correct : ∃ ver, obj.getSymbolByIndex index.toNat = .ok (obj.symbols index.toNat, ver) ∧
    obj.correctVersion version ver = .ok true

/-- The symbol cannot be probed: its version is unknown, it has no name, or it is local in an object
with versions. -/
def Faulty (obj : SharedObject) (str : List UInt8) (index : UInt32) : Prop :=
  (∃ fault, obj.getSymbolByIndex index.toNat = .error fault) ∨
    (obj.symbols index.toNat).Eligible ∧ ((obj.symbols index.toNat).stName = 0 ∨
      obj.stringOf index = str ∧ obj.definedVersions ≠ [] ∧
        ∃ ver, obj.getSymbolByIndex index.toNat = .ok (obj.symbols index.toNat, ver) ∧
          ver.isLocal = true)

theorem getSymbolByIndex_fst {index : Nat} {cand : ElfSym} {ver : SymbolVersion}
    (got : obj.getSymbolByIndex index = .ok (cand, ver)) : cand = obj.symbols index := by
  unfold getSymbolByIndex at got
  split at got
  · cases got
    rfl
  dsimp only at got
  split at got
  · cases got
  · cases got
    rfl

theorem correctVersion_error_iff {ver : SymbolVersion} :
    (∃ fault, obj.correctVersion version ver = .error fault) ↔
      obj.definedVersions ≠ [] ∧ ver.isLocal = true := by
  unfold correctVersion
  split_ifs with isLocal
  · exact iff_of_true ⟨_, rfl⟩ isLocal
  · refine iff_of_false ?_ isLocal
    rintro ⟨fault, failed⟩
    split at failed <;> cases failed

section Probe

variable {index : UInt32}

theorem probe_eq {ver : SymbolVersion}
    (got : obj.getSymbolByIndex index.toNat = .ok (obj.symbols index.toNat, ver)) :
    obj.probe str version index =
      if (obj.symbols index.toNat).Eligible then
        if (obj.symbols index.toNat).stName = 0 then .error .unnamedSymbol
        else if obj.stringOf index = str then obj.correctVersion version ver
        else .ok false
      else .ok false := by
  simp only [probe, got, bind, Except.bind]
  by_cases unnamed : (obj.symbols index.toNat).stName = 0
  · have failed : obj.getString (obj.symbols index.toNat) = .error .unnamedSymbol :=
      if_neg (not_not_intro unnamed)
    simp only [failed, if_pos unnamed]
    rfl
  have named : obj.getString (obj.symbols index.toNat) = .ok (obj.stringOf index) :=
    if_pos unnamed
  simp only [named, if_neg unnamed]
  rfl

theorem probe_eq_true_iff (ne : str ≠ []) (strings_zero : obj.strings 0 = []) :
    obj.probe str version index = .ok true ↔ obj.Matches str version index := by
  cases got : obj.getSymbolByIndex index.toNat with
  | error fault =>
    refine iff_of_false ?_ ?_
    · simp [probe, got, bind, Except.bind]
    · rintro ⟨_, _, ver, known, _⟩
      cases got.symm.trans known
  | ok pair =>
    obtain ⟨cand, ver⟩ := pair
    cases getSymbolByIndex_fst got
    rw [probe_eq got]
    constructor
    · intro acc
      split_ifs at acc with eligible unnamed same
      · exact ⟨eligible, same, ver, got, acc⟩
      · cases acc
      · cases acc
    rintro ⟨eligible, same, other, known, correct⟩
    cases got.symm.trans known
    have named : (obj.symbols index.toNat).stName ≠ 0 := by
      intro unnamed
      rw [stringOf, unnamed, strings_zero] at same
      exact ne same.symm
    rw [if_pos eligible, if_neg named, if_pos same]
    exact correct

theorem probe_error_iff :
    (∃ fault, obj.probe str version index = .error fault) ↔ obj.Faulty str index := by
  cases got : obj.getSymbolByIndex index.toNat with
  | error fault =>
    refine iff_of_true ⟨fault, ?_⟩ (.inl ⟨fault, got⟩)
    simp [probe, got, bind, Except.bind]
  | ok pair =>
    obtain ⟨cand, ver⟩ := pair
    cases getSymbolByIndex_fst got
    simp only [probe_eq got, Faulty, got]
    split_ifs with eligible unnamed same
    · simp [eligible, unnamed]
    · simp [eligible, unnamed, same, correctVersion_error_iff]
    · simp [unnamed, same]
    · simp [eligible]

end Probe

def Blocked (obj : SharedObject) (signedChar : Bool) (buckets : UInt32 → List UInt32)
    (str : List UInt8) (version : Option SymbolVersion) : Prop :=
  ∃ before index after, obj.visited signedChar buckets str = before ++ index :: after ∧
    (∀ other ∈ before, ¬obj.Matches str version other) ∧ obj.Faulty str index

theorem fails_iff (ne : str ≠ []) (strings_zero : obj.strings 0 = []) :
    Fails (obj.probe str version) (obj.visited signedChar buckets str) ↔
      obj.Blocked signedChar buckets str version := by
  simp only [Fails, ne_eq, probe_eq_true_iff ne strings_zero]
  constructor
  · rintro ⟨before, index, after, fault, split, rejected, failed⟩
    exact ⟨before, index, after, split, rejected, probe_error_iff.mp ⟨fault, failed⟩⟩
  · rintro ⟨before, index, after, split, rejected, faulty⟩
    obtain ⟨fault, failed⟩ := probe_error_iff.mpr faulty
    exact ⟨before, index, after, fault, split, rejected, failed⟩

def Finds (obj : SharedObject) (signedChar : Bool) (buckets : UInt32 → List UInt32)
    (str : List UInt8) (version : Option SymbolVersion) : Prop :=
  ∃ result bound, (∀ fuel, bound ≤ fuel →
      obj.resolveInObject signedChar str version fuel = some (.ok result)) ∧
    (result.isSome = true ↔ ∃ index, obj.Hashed buckets index ∧ obj.Matches str version index) ∧
    ∀ index, result = some index → obj.Hashed buckets index ∧ obj.Matches str version index

section Table

variable (table : obj.IsTable buckets) (ne : str ≠ [])
include table ne

theorem matches_of_search {index : UInt32}
    (found : search (obj.probe str version) (obj.visited signedChar buckets str) =
      .ok (some index)) :
    obj.Hashed buckets index ∧ obj.Matches str version index ∧ obj.Leads signedChar str := by
  obtain ⟨visits, acc⟩ := mem_of_search_eq_some found
  have pos : 0 < obj.numBuckets := UInt32.pos_iff_ne_zero.mpr table.numBuckets_ne
  have hashed : obj.Hashed buckets index := by
    refine ⟨_, UInt32.mod_lt (obj.codeHash signedChar str) pos, ?_⟩
    unfold visited at visits
    split at visits
    · exact visits
    · exact (List.mem_filter.mp visits).1
  have isMatch := (probe_eq_true_iff ne table.strings_zero).mp acc
  have leads := table.visited_iff signedChar hashed
  rw [isMatch.string_eq] at leads
  exact ⟨hashed, isMatch, leads.mp visits⟩

theorem finds_iff : obj.Finds signedChar buckets str version ↔
      ((∃ index, obj.Hashed buckets index ∧ obj.Matches str version index) →
        obj.Leads signedChar str) ∧
      ¬obj.Blocked signedChar buckets str version := by
  rw [← fails_iff ne table.strings_zero, ← exists_search_iff]
  generalize lengthEq : (buckets (obj.codeHash signedChar str % obj.numBuckets)).length = length
  have resolves {fuel : Nat} (enough : length < fuel) :=
    resolveInObject_eq table signedChar str version (lengthEq ▸ enough)
  constructor
  · rintro ⟨result, bound, ends, presence, _⟩
    have result_eq := (ends (bound + length + 1) (by omega)).symm.trans (resolves (by omega))
    have searched := (Option.some.inj result_eq).symm
    refine ⟨?_, result, searched⟩
    intro exists_match
    obtain ⟨index, rfl⟩ := Option.isSome_iff_exists.mp (presence.mpr exists_match)
    exact (matches_of_search table ne searched).2.2
  rintro ⟨leads, result, searched⟩
  refine ⟨result, length + 1, ?_, ?_, ?_⟩
  · intro fuel enough
    rw [resolves enough, searched]
  · constructor
    · intro isSome
      obtain ⟨index, rfl⟩ := Option.isSome_iff_exists.mp isSome
      obtain ⟨hashed, isMatch, _⟩ := matches_of_search table ne searched
      exact ⟨index, hashed, isMatch⟩
    rintro ⟨index, hashed, isMatch⟩
    have visits := (table.visited_iff signedChar hashed).mpr
    rw [isMatch.string_eq] at visits
    have acc := (probe_eq_true_iff ne table.strings_zero).mpr isMatch
    cases result with
    | some _ => rfl
    | none =>
      have rejected := rejected_of_search_eq_none searched index
        (visits (leads ⟨index, hashed, isMatch⟩))
      cases acc.symm.trans rejected
  · rintro index rfl
    obtain ⟨hashed, isMatch, _⟩ := matches_of_search table ne searched
    exact ⟨hashed, isMatch⟩

/-- In a well-formed table `resolveInObject` returns a symbol that matches, or none if there is
none, exactly if the computed hash leads to such a symbol and no faulty one is met before. -/
theorem resolveInObject_finds_iff : (obj.Finds signedChar buckets str version ↔
      ((∃ index, obj.Hashed buckets index ∧ obj.Matches str version index) →
        obj.Leads signedChar str) ∧
      ¬obj.Blocked signedChar buckets str version) ∧
    ∀ hashStyle hashTable otherBuckets, ∀ other : SharedObject,
      other = { obj with hashStyle, hashTable } →
      (∀ index, obj.Hashed buckets index ↔ other.Hashed otherBuckets index) →
      obj.Finds signedChar buckets str version →
      other.Finds signedChar otherBuckets str version →
      ∃ found bound, ∀ fuel, bound ≤ fuel →
        (obj.resolveInObject signedChar str version fuel).map (·.map Option.isSome) =
          some (.ok found) ∧
        (other.resolveInObject signedChar str version fuel).map (·.map Option.isSome) =
          some (.ok found) := by
  refine ⟨finds_iff table ne, ?_⟩
  rintro hashStyle hashTable otherBuckets other rfl sameHashed
    ⟨result, bound, ends, presence, _⟩ ⟨otherResult, otherBound, otherEnds, otherPresence, _⟩
  have samePresence : result.isSome = otherResult.isSome := by
    rw [Bool.eq_iff_iff, presence, otherPresence]
    apply exists_congr
    intro index
    rw [sameHashed]
    apply and_congr_right
    intro _
    exact ⟨fun ⟨eligible, same, correct⟩ => ⟨eligible, same, correct⟩,
      fun ⟨eligible, same, correct⟩ => ⟨eligible, same, correct⟩⟩
  refine ⟨result.isSome, bound + otherBound, ?_⟩
  intro fuel enough
  constructor
  · rw [ends fuel (by omega)]
    rfl
  · rw [otherEnds fuel (by omega), samePresence]
    rfl

end Table

/-- An object that defines the symbols with the strings, from index 1 on. -/
def defining (hashStyle : HashStyle) (hashTable : List UInt32) (strs : List (List UInt8)) :
    SharedObject where
  hashStyle
  hashTable position := hashTable.getD position 0
  symbols index := if index ≤ strs.length then ⟨UInt32.ofNat index, 7, 0x12⟩ else ⟨0, 0, 0⟩
  strings offset := ([] :: strs).getD offset.toNat []
  versionTable := none
  knownVersions _ := none
  definedVersions := []

theorem defining_not_blocked {hashStyle : HashStyle} {hashTable : List UInt32}
    {strs : List (List UInt8)}
    (skips : 0 ∉ (defining hashStyle hashTable strs).visited signedChar buckets str) :
    ¬(defining hashStyle hashTable strs).Blocked signedChar buckets str version := by
  rintro ⟨before, index, after, visits, _, faulty⟩
  have ne : index ≠ 0 := by
    rintro rfl
    exact skips (visits ▸ List.mem_append_cons_self)
  rcases faulty with ⟨fault, failed⟩ | ⟨eligible, unnamed | ⟨_, versions, _⟩⟩
  · cases failed
  · by_cases inside : index.toNat ≤ strs.length
    · simp [defining, inside, ne] at unnamed
    · simp [defining, inside, ElfSym.Eligible] at eligible
  · exact versions rfl

theorem eq_of_lt_two {bucket : UInt32} (below : bucket < 2) : bucket = 0 ∨ bucket = 1 := by
  have below : bucket.toNat < 2 := UInt32.lt_iff_toNat_lt.mp below
  simp only [← UInt32.toNat_inj]
  change bucket.toNat = 0 ∨ bucket.toNat = 1
  omega

theorem eq_zero_of_lt_one {bucket : UInt32} (below : bucket < 1) : bucket = 0 :=
  UInt32.toNat_inj.mp (Nat.lt_one_iff.mp below)

theorem letters_systemV : (defining .systemV [2, 4, 3, 1, 0, 2, 0, 0] [[97], [109], [122]]).IsTable
      fun bucket => if bucket = 0 then [3] else [1, 2] where
  strings_zero := rfl
  numBuckets_ne := by decide
  numBuckets_lt := by decide
  isBucket bucket below := by
    obtain rfl | rfl := eq_of_lt_two below
    · exact .cons (by decide) (by decide) .nil
    · exact .cons (by decide) (by decide) (.cons (by decide) (by decide) .nil)
  placed bucket below index mem := by
    obtain rfl | rfl := eq_of_lt_two below
    · obtain rfl : index = 3 := by simpa using mem
      rfl
    · obtain rfl | rfl : index = 1 ∨ index = 2 := by simpa using mem
      all_goals rfl

theorem letters_gnu : (defining .gnu [2, 1, 1, 0, 0, 0, 1, 3, 177670, 177683, 177695]
      [[97], [109], [122]]).IsTable fun bucket => if bucket = 0 then [1, 2] else [3] where
  strings_zero := rfl
  numBuckets_ne := by decide
  numBuckets_lt := by decide
  isBucket bucket below := by
    obtain rfl | rfl := eq_of_lt_two below
    · refine ⟨fun empty => absurd empty (by decide), fun _ => ?_, fun index mem => ?_⟩
      · exact .cons (by decide) (by decide) rfl (.last (by decide) (by decide))
      · obtain rfl | rfl : index = 1 ∨ index = 2 := by simpa using mem
        all_goals rfl
    · refine ⟨fun empty => absurd empty (by decide), fun _ => ?_, fun index mem => ?_⟩
      · exact .last (by decide) (by decide)
      · obtain rfl : index = 3 := by simpa using mem
        rfl
  placed bucket below index mem := by
    obtain rfl | rfl := eq_of_lt_two below
    · obtain rfl | rfl : index = 1 ∨ index = 2 := by simpa using mem
      all_goals rfl
    · obtain rfl : index = 3 := by simpa using mem
      rfl

/-- The symbol `m` is the second one in its bucket. -/
theorem resolveInObject_finds_m :
    (defining .systemV [2, 4, 3, 1, 0, 2, 0, 0] [[97], [109], [122]]).Finds true
        (fun bucket => if bucket = 0 then [3] else [1, 2]) [109] none ∧
      (defining .gnu [2, 1, 1, 0, 0, 0, 1, 3, 177670, 177683, 177695] [[97], [109], [122]]).Finds
        true (fun bucket => if bucket = 0 then [1, 2] else [3]) [109] none := by
  have leads (obj : SharedObject) : obj.Leads true [109] := leads_of_ascii (by simp) true
  constructor
  · apply (resolveInObject_finds_iff letters_systemV (by decide)).1.mpr
    exact ⟨fun _ => leads _, defining_not_blocked (by decide)⟩
  · apply (resolveInObject_finds_iff letters_gnu (by decide)).1.mpr
    exact ⟨fun _ => leads _, defining_not_blocked (by decide)⟩

theorem umlaut_systemV : (defining .systemV [1, 2, 1, 0, 0] [[0xE4]]).IsTable fun _ => [1] where
  strings_zero := rfl
  numBuckets_ne := by decide
  numBuckets_lt := by decide
  isBucket bucket below := by
    cases eq_zero_of_lt_one below
    exact .cons (by decide) (by decide) .nil
  placed bucket below index mem := by
    cases eq_zero_of_lt_one below
    cases List.mem_singleton.mp mem
    rfl

theorem umlaut_systemV_three : (defining .systemV [3, 2, 1, 0, 0, 0, 0] [[0xE4]]).IsTable
      fun bucket => if bucket = 0 then [1] else [] where
  strings_zero := rfl
  numBuckets_ne := by decide
  numBuckets_lt := by decide
  isBucket bucket below := by
    have below : bucket.toNat < 3 := UInt32.lt_iff_toNat_lt.mp below
    obtain first | second | third : bucket = 0 ∨ bucket = 1 ∨ bucket = 2 := by
      simp only [← UInt32.toNat_inj]
      change bucket.toNat = 0 ∨ bucket.toNat = 1 ∨ bucket.toNat = 2
      omega
    · cases first
      exact .cons (by decide) (by decide) .nil
    · cases second
      exact .nil
    · cases third
      exact .nil
  placed bucket _ index mem := by
    split_ifs at mem with first
    · cases List.mem_singleton.mp mem
      cases first
      decide
    · cases mem

theorem umlaut_gnu :
    (defining .gnu [1, 1, 1, 0, 0, 0, 1, 177801] [[0xE4]]).IsTable fun _ => [1] where
  strings_zero := rfl
  numBuckets_ne := by decide
  numBuckets_lt := by decide
  isBucket bucket below := by
    cases eq_zero_of_lt_one below
    refine ⟨fun empty => absurd empty (by decide), fun _ => ?_, fun index mem => ?_⟩
    · exact .last (by decide) (by decide)
    · cases List.mem_singleton.mp mem
      rfl
  placed bucket below index mem := by
    cases eq_zero_of_lt_one below
    cases List.mem_singleton.mp mem
    rfl

/-- The symbol `ä` in Latin-1 is only found in the System V table with one bucket. -/
theorem resolveInObject_misses :
    (∀ hashStyle hashTable, (defining hashStyle hashTable [[0xE4]]).Matches [0xE4] none 1) ∧
      ((defining .systemV [1, 2, 1, 0, 0] [[0xE4]]).IsTable (fun _ => [1]) ∧
        (defining .systemV [1, 2, 1, 0, 0] [[0xE4]]).resolveInObject true [0xE4] none 2 =
          some (.ok (some 1))) ∧
      ((defining .systemV [3, 2, 1, 0, 0, 0, 0] [[0xE4]]).IsTable
          (fun bucket => if bucket = 0 then [1] else []) ∧
        (defining .systemV [3, 2, 1, 0, 0, 0, 0] [[0xE4]]).resolveInObject true [0xE4] none 2 =
          some (.ok none)) ∧
      (defining .gnu [1, 1, 1, 0, 0, 0, 1, 177801] [[0xE4]]).IsTable (fun _ => [1]) ∧
        (defining .gnu [1, 1, 1, 0, 0, 0, 1, 177801] [[0xE4]]).resolveInObject
          true [0xE4] none 2 = some (.ok none) := by
  refine ⟨fun _ _ => ⟨?_, rfl, _, rfl, rfl⟩, ⟨umlaut_systemV, ?_⟩, ⟨umlaut_systemV_three, ?_⟩,
    umlaut_gnu, ?_⟩
  · exact ⟨(by decide : (7 : UInt16) ≠ 0), .inl (by decide : (0x12 : UInt8) >>> 4 = 1)⟩
  · rfl
  · rfl
  · rfl

end Mlibc.Symbols.SharedObject
