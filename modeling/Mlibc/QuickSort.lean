import Mlibc.Postconditions
import Mlibc.Rearrangement

/-!
# Quicksort

The model of `qsort_impl` on a list of bytes.  The comparison function has a state of its own.
-/

namespace Mlibc.QuickSort

open List Equiv

inductive Fault where
  | outside
  | ensure
  | fuel
  deriving DecidableEq

abbrev Element := List UInt8

/-- The array, and the state of the comparison function. -/
structure World (σ : Type) where
  memory : List UInt8
  session : σ

abbrev Program (σ α : Type) := EStateM Fault (World σ) α

abbrev Compare (σ : Type) := σ → Element → Element → Int × σ

variable {σ : Type}

def element (size : Nat) (memory : List UInt8) (i : Nat) : Element :=
  (memory.drop (i * size)).take size

def loadByte (p : Nat) : Program σ UInt8 := do
  match (← get).memory[p]? with
  | some byte => return byte
  | none => throw .outside

def storeByte (p : Nat) (byte : UInt8) : Program σ Unit := do
  require (p < (← get).memory.length) .outside
  modify fun world => { world with memory := world.memory.set p byte }

def swapBytes (p q : Nat) : Program σ Unit := do
  let byte ← loadByte p
  storeByte p (← loadByte q)
  storeByte q byte

def compareIdx (compare : Compare σ) (size i j : Nat) : Program σ Int := do
  let world ← get
  require ((i + 1) * size ≤ world.memory.length) .outside
  require ((j + 1) * size ≤ world.memory.length) .outside
  let (result, session) :=
    compare world.session (element size world.memory i) (element size world.memory j)
  modify fun world => { world with session := session }
  return result

def swapIdx (size i j : Nat) : Program σ Unit :=
  (List.range size).forM fun k => swapBytes (i * size + k) (j * size + k)

def partitionLoop (compare : Compare σ) (size pivot : Nat) : Nat → Nat → Nat → Program σ Nat
  | 0, i, _ => return i
  | count + 1, i, j => do
      if (← compareIdx compare size j pivot) ≤ 0 then
        swapIdx size i j
        partitionLoop compare size pivot count (i + 1) (j + 1)
      else
        partitionLoop compare size pivot count i (j + 1)

def partition (compare : Compare σ) (size first last : Nat) : Program σ Nat := do
  require (first < last) .ensure
  let pivot := last - 1
  let i ← partitionLoop compare size pivot (pivot - first) first first
  swapIdx size i pivot
  return i

def quickSort (compare : Compare σ) (size : Nat) : Nat → Nat → Nat → Program σ Unit
  | 0, _, _ => throw .fuel
  | fuel + 1, first, last => do
      require (first ≤ last) .ensure
      if last - first ≤ 1 then
        return
      let pivot ← partition compare size first last
      quickSort compare size fuel first pivot
      quickSort compare size fuel (pivot + 1) last

def qsortImpl (compare : Compare σ) (count size fuel : Nat) : Program σ Unit :=
  quickSort compare size fuel 0 count

section Bytes

variable {size : Nat} {memory : List UInt8}

theorem element_getElem? (i k : Nat) :
    (element size memory i)[k]? = if k < size then memory[i * size + k]? else none := by
  rw [element, getElem?_take, getElem?_drop]

variable {world : World σ}

theorem ends_loadByte {p : Nat} (within : p < world.memory.length) :
    Ends (loadByte p) world (fun byte after => world.memory[p]? = some byte ∧ after = world)
      Never := by
  rw [loadByte, ends_bind, ends_get]
  simp only [getElem?_eq_getElem within]
  exact ⟨rfl, rfl⟩

theorem ends_storeByte {p : Nat} {byte : UInt8} (within : p < world.memory.length) :
    Ends (storeByte p byte) world
      (fun _ after => after = { world with memory := world.memory.set p byte }) Never := by
  rw [storeByte, ends_bind, ends_get, ends_bind, ends_require_of within, ends_modify]

theorem ends_swapBytes {p q : Nat} (pWithin : p < world.memory.length)
    (qWithin : q < world.memory.length) :
    Ends (swapBytes p q) world
      (fun _ after => after.session = world.session ∧ after.memory.length = world.memory.length ∧
        ∀ r, after.memory[r]? = world.memory[swap p q r]?) Never := by
  rw [swapBytes, ends_bind]
  refine (ends_loadByte pWithin).mono ?_ (fun _ _ => id)
  rintro first _ ⟨atP, rfl⟩
  rw [ends_bind]
  refine (ends_loadByte qWithin).mono ?_ (fun _ _ => id)
  rintro second world ⟨atQ, rfl⟩
  rw [ends_bind]
  refine (ends_storeByte pWithin).mono ?_ (fun _ _ => id)
  rintro _ _ rfl
  have qLater : q < (world.memory.set p second).length := by rwa [length_set]
  refine (ends_storeByte qLater).mono ?_ (fun _ _ => id)
  rintro _ _ rfl
  refine ⟨rfl, ?_, ?_⟩
  · simp only [length_set]
  intro r
  simp only [getElem?_set, length_set]
  by_cases isQ : q = r
  · subst isQ
    rw [if_pos rfl, if_pos qWithin, swap_apply_right, atP]
  rw [if_neg isQ]
  by_cases isP : p = r
  · subst isP
    rw [if_pos rfl, if_pos pWithin, swap_apply_left, atQ]
  · rw [if_neg isP, swap_apply_of_ne_of_ne (Ne.symm isP) (Ne.symm isQ)]

theorem position_eq_iff {i j k l : Nat} (kLt : k < size) (lLt : l < size) :
    i * size + k = j * size + l ↔ i = j ∧ k = l := by
  constructor
  · intro same
    have quotients := congrArg (· / size) same
    have remainders := congrArg (· % size) same
    have pos : 0 < size := Nat.zero_lt_of_lt kLt
    simp only [Nat.mul_comm _ size, Nat.mul_add_div pos, Nat.div_eq_of_lt kLt,
      Nat.div_eq_of_lt lLt] at quotients
    simp only [Nat.mul_comm _ size, Nat.mul_add_mod, Nat.mod_eq_of_lt kLt,
      Nat.mod_eq_of_lt lLt] at remainders
    exact ⟨quotients, remainders⟩
  · rintro ⟨rfl, rfl⟩
    rfl

theorem position_lt {i k count : Nat} (kLt : k < size) (within : i < count) :
    i * size + k < count * size := by
  calc
    i * size + k < i * size + size := Nat.add_lt_add_left kLt _
    _ = (i + 1) * size := by rw [Nat.add_mul, Nat.one_mul]
    _ ≤ count * size := Nat.mul_le_mul_right size within

theorem swap_position {i j r k l : Nat} (kLt : k < size) (lLt : l < size) :
    swap (i * size + k) (j * size + k) (r * size + l) =
      if l = k then swap i j r * size + l else r * size + l := by
  split_ifs with same
  · subst same
    by_cases isI : r = i
    · subst isI
      rw [swap_apply_left, swap_apply_left]
    by_cases isJ : r = j
    · subst isJ
      rw [swap_apply_right, swap_apply_right]
    · rw [swap_apply_of_ne_of_ne isI isJ, swap_apply_of_ne_of_ne]
      · exact fun equal => isI ((position_eq_iff lLt lLt).mp equal).1
      · exact fun equal => isJ ((position_eq_iff lLt lLt).mp equal).1
  · apply swap_apply_of_ne_of_ne
    · exact fun equal => same ((position_eq_iff lLt kLt).mp equal).2
    · exact fun equal => same ((position_eq_iff lLt kLt).mp equal).2

theorem ends_swapIdx {i j count : Nat} (whole : world.memory.length = count * size)
    (iWithin : i < count) (jWithin : j < count) :
    Ends (swapIdx size i j) world
      (fun _ after => after.session = world.session ∧ after.memory.length = world.memory.length ∧
        ∀ r, element size after.memory r = element size world.memory (swap i j r)) Never := by
  apply ends_forM fun passed after => after.session = world.session ∧
    after.memory.length = world.memory.length ∧
    ∀ r l, l < size → after.memory[r * size + l]? =
      if l < passed.length then world.memory[swap i j r * size + l]?
      else world.memory[r * size + l]?
  · intro passed k rest after split invariant
    obtain ⟨session, length, moved⟩ := invariant
    have here : (range size)[passed.length]? = some k := by
      rw [split, getElem?_append_right le_rfl, Nat.sub_self]
      rfl
    have kLt : passed.length < size := by
      rw [← length_range (n := size)]
      exact (List.getElem?_eq_some_iff.mp here).1
    rw [getElem?_range kLt, Option.some.injEq] at here
    subst here
    have inMemory {r : Nat} (within : r < count) : r * size + passed.length <
        after.memory.length := by
      rw [length, whole]
      exact position_lt kLt within
    refine (ends_swapBytes (inMemory iWithin) (inMemory jWithin)).mono ?_ (fun _ _ => id)
    rintro _ next ⟨nextSession, nextLength, exchanged⟩
    refine ⟨nextSession.trans session, nextLength.trans length, ?_⟩
    intro r l lLt
    rw [exchanged, swap_position kLt lLt, length_append, length_singleton]
    by_cases same : l = passed.length
    · rw [if_pos same, moved _ l lLt, if_neg (by omega), if_pos (by omega)]
    rw [if_neg same, moved r l lLt]
    by_cases done : l < passed.length
    · rw [if_pos done, if_pos (by omega)]
    · rw [if_neg done, if_neg (by omega)]
  · refine ⟨rfl, rfl, ?_⟩
    intro r l _
    rfl
  · rintro after ⟨session, length, moved⟩
    refine ⟨session, length, ?_⟩
    intro r
    apply ext_getElem?
    intro l
    rw [element_getElem?, element_getElem?]
    split_ifs with within
    · rw [moved r l within, length_range, if_pos within]
    · rfl

end Bytes

theorem ends_compareIdx {compare : Compare σ} {size i j count : Nat} {world : World σ}
    (whole : world.memory.length = count * size) (iWithin : i < count) (jWithin : j < count) :
    Ends (compareIdx compare size i j) world (fun result after => after.memory = world.memory ∧
        result = (compare world.session (element size world.memory i)
          (element size world.memory j)).1) Never := by
  have inMemory {r : Nat} (within : r < count) : (r + 1) * size ≤ world.memory.length := by
    rw [whole]
    exact Nat.mul_le_mul_right size within
  rw [compareIdx, ends_bind, ends_get, ends_bind, ends_require_of (inMemory iWithin), ends_bind,
    ends_require_of (inMemory jWithin)]
  exact ⟨rfl, rfl⟩

end Mlibc.QuickSort
