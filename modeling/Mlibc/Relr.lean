import Mathlib.Data.Finset.Basic
import Mathlib.Data.List.Nodup
import Mathlib.Data.Nat.Bitwise
import Mathlib.Logic.Function.Basic

/-!
# Packed relative relocations

The loop over the `DT_RELR` table in `_processStaticRelocations`, for words of any width.
-/

namespace Mlibc.Relr

open List

variable {width : Nat}

/-- The word at each address.  The words that a table of aligned offsets describes do not
overlap. -/
abbrev Memory (width : Nat) := BitVec width → BitVec width

def wordSize (width : Nat) : Nat := width / 8

section Code

variable (base : BitVec width)

def addBase (memory : Memory width) (addr : BitVec width) : Memory width :=
  Function.update memory addr (memory addr + base)

def element (addr : BitVec width) (i : Nat) : BitVec width :=
  addr + BitVec.ofNat width (i * wordSize width)

def bitmapLoop (addr : BitVec width) (i : Nat) (entry : BitVec width) (memory : Memory width) :
    Memory width :=
  if entry = 0 then memory
  else
    bitmapLoop addr (i + 1) (entry >>> 1)
      (if entry.getLsbD 0 then addBase base memory (element addr i) else memory)
termination_by entry.toNat
decreasing_by
  rename_i nz
  have pos : entry.toNat ≠ 0 := fun isZero => nz (BitVec.eq_of_toNat_eq isZero)
  rw [BitVec.toNat_ushiftRight, Nat.shiftRight_eq_div_pow]
  omega

/-- The entries from the pointer `addr` on; there is no result if the check of the pointer
fails. -/
def processEntries : BitVec width → List (BitVec width) → Memory width → Option (Memory width)
  | _, [], memory => some memory
  | addr, entry :: entries, memory =>
    if entry.getLsbD 0 = false then
      if base + entry = 0 then none
      else
        processEntries (element (base + entry) 1) entries
          (addBase base memory (base + entry))
    else
      processEntries (element addr (width - 1)) entries
        (bitmapLoop base addr 0 (entry >>> 1) memory)

def processRelr (entries : List (BitVec width)) (memory : Memory width) : Option (Memory width) :=
  processEntries base 0 entries memory

end Code

/-! ### What a table describes -/

/-- The offsets that the entries describe, where the words described before end at `position`. -/
def described : Nat → List (BitVec width) → List Nat
  | _, [] => []
  | position, entry :: entries =>
    if entry.getLsbD 0 = false then
      entry.toNat :: described (entry.toNat + wordSize width) entries
    else
      (((range (width - 1)).filter fun i => entry.getLsbD (1 + i)).map
        (position + · * wordSize width)) ++
          described (position + (width - 1) * wordSize width) entries

/-- The entries describe every offset once. -/
structure Encodes (entries : List (BitVec width)) (offsets : Finset Nat) : Prop where
  starts : ∀ entry ∈ entries.head?, entry.getLsbD 0 = false
  once : (described 0 entries).Nodup
  covers : ∀ offset, offset ∈ described 0 entries ↔ offset ∈ offsets
  aligned : ∀ offset ∈ offsets, wordSize width ∣ offset
  inside : ∀ offset ∈ offsets, offset < 2 ^ width

/-- The base address is added to the words at the offsets, and no other word changes. -/
def Relocates (base : BitVec width) (entries : List (BitVec width))
    (offsets : Finset Nat) : Prop :=
  ∀ memory, ∃ after, processRelr base entries memory = some after ∧
    ∀ addr, after addr =
      if (addr - base).toNat ∈ offsets then memory addr + base else memory addr

section Run

variable {base : BitVec width} {entries : List (BitVec width)}

theorem shiftRight_bits (entry : BitVec width) :
    (entry >>> 1).getLsbD = fun i => entry.getLsbD (1 + i) :=
  funext fun _ => BitVec.getLsbD_ushiftRight ..

theorem bitmapLoop_eq (addr : BitVec width) (i : Nat) {entry : BitVec width} {bits : Nat}
    (bound : entry.toNat < 2 ^ bits) (memory : Memory width) :
    bitmapLoop base addr i entry memory =
      (((range bits).filter entry.getLsbD).map fun j => element addr (i + j)).foldl
        (addBase base) memory := by
  induction bits generalizing i entry memory with
  | zero =>
    have isZero : entry = 0 := BitVec.eq_of_toNat_eq (Nat.lt_one_iff.mp bound)
    rw [bitmapLoop, if_pos isZero]
    rfl
  | succ bits ih =>
    rw [bitmapLoop]
    by_cases isZero : entry = 0
    · rw [if_pos isZero, isZero, filter_eq_nil_iff.mpr fun j _ => by simp]
      rfl
    have later : (entry >>> 1).toNat < 2 ^ bits := by
      rw [BitVec.toNat_ushiftRight, Nat.shiftRight_eq_div_pow]
      omega
    have shifted : (entry >>> 1).getLsbD = entry.getLsbD ∘ Nat.succ :=
      (shiftRight_bits entry).trans (funext fun j => congrArg _ (Nat.add_comm 1 j))
    have moved :
        (fun j => element addr (i + 1 + j)) = (fun j => element addr (i + j)) ∘ Nat.succ :=
      funext fun j => congrArg (element addr) (Nat.add_right_comm i 1 j)
    rw [if_neg isZero, ih (i + 1) later, shifted, moved, ← map_map, ← filter_map,
      range_succ_eq_map, filter_cons]
    split_ifs <;> rfl

theorem processEntries_eq (position : Nat) (memory : Memory width) :
    processEntries base (base + BitVec.ofNat width position) entries memory =
      if ∀ entry ∈ entries, entry.getLsbD 0 = false → base + entry ≠ 0 then
        some (((described position entries).map
          (base + BitVec.ofNat width ·)).foldl (addBase base) memory)
      else none := by
  have next (start i : Nat) : element (base + BitVec.ofNat width start) i =
      base + BitVec.ofNat width (start + i * wordSize width) := by
    rw [element, BitVec.ofNat_add, BitVec.add_assoc]
  induction entries generalizing position memory with
  | nil => exact (if_pos (forall_mem_nil _)).symm
  | cons entry entries ih =>
    rw [processEntries, described]
    simp only [forall_mem_cons]
    by_cases isAddress : entry.getLsbD 0 = false
    · have isEntry : BitVec.ofNat width entry.toNat = entry := by simp
      have behind := next entry.toNat 1
      rw [isEntry, Nat.one_mul] at behind
      rw [if_pos isAddress, if_pos isAddress, behind, ih]
      by_cases isNull : base + entry = 0
      · simp [isAddress, isNull]
      · rw [if_neg isNull]
        simp only [isAddress, isEntry, isNull, forall_const, ne_eq, not_false_eq_true, true_and,
          map_cons, foldl_cons]
    · have bound : (entry >>> 1).toNat < 2 ^ (width - 1) := by
        have below := entry.isLt
        rw [BitVec.toNat_ushiftRight, Nat.shiftRight_eq_div_pow]
        cases width with
        | zero => simp at isAddress
        | succ width => simp only [Nat.add_sub_cancel]; omega
      rw [if_neg isAddress, if_neg isAddress, next, ih, bitmapLoop_eq _ 0 bound, map_append,
        foldl_append, map_map, shiftRight_bits]
      simp [isAddress, next, Function.comp_def]

theorem foldl_addBase {addrs : List (BitVec width)} (once : addrs.Nodup) (memory : Memory width)
    (addr : BitVec width) :
    addrs.foldl (addBase base) memory addr =
      if addr ∈ addrs then memory addr + base else memory addr := by
  induction addrs generalizing memory with
  | nil => rfl
  | cons first addrs ih =>
    obtain ⟨fresh, once⟩ := nodup_cons.mp once
    rw [foldl_cons, ih once, addBase, Function.update_apply]
    by_cases isFirst : addr = first
    · subst isFirst
      simp [fresh]
    · simp [isFirst]

end Run

/-- Every described word is relocated once exactly if no address entry is zero with the base. -/
theorem relr_relocates_iff {entries : List (BitVec width)} {offsets : Finset Nat}
    (encodes : Encodes entries offsets) (base : BitVec width) :
    Relocates base entries offsets ↔
      ∀ entry ∈ entries, entry.getLsbD 0 = false → base + entry ≠ 0 := by
  have started (memory : Memory width) : processRelr base entries memory =
      processEntries base (base + BitVec.ofNat width 0) entries memory := by
    unfold processRelr
    cases isEntries : entries with
    | nil => rfl
    | cons entry entries =>
      have isAddress := encodes.starts entry (by rw [isEntries]; rfl)
      rw [processEntries, processEntries, if_pos isAddress, if_pos isAddress]
  unfold Relocates
  simp only [started, processEntries_eq]
  split_ifs with nonNull
  · refine iff_of_true (fun memory => ⟨_, rfl, fun addr => ?_⟩) nonNull
    have inside (offset : Nat) (mem : offset ∈ described 0 entries) :
        (BitVec.ofNat width offset).toNat = offset :=
      Nat.mod_eq_of_lt (encodes.inside offset ((encodes.covers offset).mp mem))
    have once : ((described 0 entries).map (base + BitVec.ofNat width ·)).Nodup := by
      refine encodes.once.map_on fun first isFirst second isSecond same => ?_
      rw [← inside first isFirst, ← inside second isSecond, (BitVec.add_right_inj _).mp same]
    rw [foldl_addBase once]
    refine if_congr ?_ rfl rfl
    rw [mem_map, ← encodes.covers]
    constructor
    · rintro ⟨offset, mem, rfl⟩
      rw [BitVec.add_comm, BitVec.add_sub_cancel, inside offset mem]
      exact mem
    · intro mem
      exact ⟨_, mem, by rw [BitVec.ofNat_toNat, BitVec.setWidth_eq, BitVec.add_comm,
        BitVec.sub_add_cancel]⟩
  · exact iff_of_false (fun relocates => by simpa using relocates fun _ => 0) nonNull

theorem relr_relocates_bitmaps :
    Relocates 0x4000#64 [0x10#64, 0x15#64, 1#64, 5#64] {0x10, 0x20, 0x30, 0x410} := by
  have isDescribed : described 0 [0x10#64, 0x15#64, 1#64, 5#64] = [0x10, 0x20, 0x30, 0x410] := by
    decide +kernel
  have encodes : Encodes [0x10#64, 0x15#64, 1#64, 5#64] {0x10, 0x20, 0x30, 0x410} := by
    refine ⟨by simp, ?_, by simp [isDescribed], ?_, ?_⟩ <;> decide +kernel
  exact (relr_relocates_iff encodes _).mpr (by simp)

/-- A word at the address zero is refused. -/
theorem relr_refuses_null : Encodes [0#64] {0} ∧ ¬Relocates 0#64 [0#64] {0} := by
  refine ⟨⟨by simp, by simp [described], by simp [described], by simp, by simp⟩, ?_⟩
  intro relocates
  obtain ⟨after, run, -⟩ := relocates fun _ => 0
  simp [processRelr, processEntries] at run

end Mlibc.Relr
