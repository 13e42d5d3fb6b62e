import Mathlib.Data.List.Basic
import Mathlib.Data.Nat.Bitwise
import Mlibc.PartialSearch
import Mlibc.SymbolResolution

/-! # Well-formed hash tables -/

namespace Mlibc.Symbols.SharedObject

open PartialSearch List

variable (obj : SharedObject)

def stringOf (index : UInt32) : List UInt8 := obj.strings (obj.symbols index.toNat).stName

/-- The symbols that are linked in a System V table, from an index on. -/
inductive IsChain : UInt32 → List UInt32 → Prop where
  | nil : IsChain 0 []
  | cons {index : UInt32} {rest : List UInt32} : index ≠ 0 →
      2 + obj.numBuckets.toNat + index.toNat < 2 ^ 32 →
      IsChain (obj.hashTable (2 + obj.numBuckets.toNat + index.toNat)) rest →
      IsChain index (index :: rest)

def chainWord (index : UInt32) : UInt32 :=
  obj.hashTable (obj.gnuChains + (index.toNat - obj.symbolOffset.toNat))

inductive IsRun : UInt32 → List UInt32 → Prop where
  | last {index : UInt32} : obj.symbolOffset ≤ index →
      obj.chainWord index &&& 1 ≠ 0 → IsRun index [index]
  | cons {index next : UInt32} {rest : List UInt32} : obj.symbolOffset ≤ index →
      obj.chainWord index &&& 1 = 0 → next.toNat = index.toNat + 1 →
      IsRun next rest → IsRun index (index :: rest)

def standardHash (str : List UInt8) : UInt32 :=
  match obj.hashStyle with
  | .systemV => elf64Hash false str
  | .gnu => gnuHash false str

def codeHash (signedChar : Bool) (str : List UInt8) : UInt32 :=
  match obj.hashStyle with
  | .systemV => elf64Hash signedChar str
  | .gnu => gnuHash signedChar str

def IsBucket (bucket : UInt32) (indices : List UInt32) : Prop :=
  match obj.hashStyle with
  | .systemV => obj.IsChain (obj.hashTable (2 + bucket.toNat)) indices
  | .gnu =>
    let first := obj.hashTable (obj.gnuBuckets + bucket.toNat)
    (first = 0 → indices = []) ∧ (first ≠ 0 → obj.IsRun first indices) ∧
      ∀ index ∈ indices, obj.chainWord index &&& ~~~1 = gnuHash false (obj.stringOf index) &&& ~~~1

/-- The table is well formed, and has the symbols in its buckets.  The string table begins with
the empty string. -/
structure IsTable (buckets : UInt32 → List UInt32) : Prop where
  strings_zero : obj.strings 0 = []
  numBuckets_ne : obj.numBuckets ≠ 0
  numBuckets_lt : 2 + obj.numBuckets.toNat < 2 ^ 32
  isBucket : ∀ bucket < obj.numBuckets, obj.IsBucket bucket (buckets bucket)
  placed : ∀ bucket < obj.numBuckets, ∀ index ∈ buckets bucket,
    obj.standardHash (obj.stringOf index) % obj.numBuckets = bucket

variable {obj} {probe : UInt32 → Except Fault Bool} {fuel : Nat} {index : UInt32}
  {indices : List UInt32}

theorem systemVLoop_eq (chain : obj.IsChain index indices) (enough : indices.length < fuel) :
    obj.systemVLoop probe fuel index = some (search probe indices) := by
  induction chain generalizing fuel with
  | nil =>
    cases fuel with
    | zero => cases enough
    | succ fuel => rfl
  | @cons index rest nz inside _ ih =>
    cases fuel with
    | zero => cases enough
    | succ fuel =>
      have position : (2 + obj.numBuckets + index).toNat =
          2 + obj.numBuckets.toNat + index.toNat := by
        rw [UInt32.toNat_add, UInt32.toNat_add]
        change ((2 + _) % 2 ^ 32 + _) % 2 ^ 32 = _
        omega
      rw [systemVLoop, if_neg nz, search, position]
      cases probe index with
      | error fault => rfl
      | ok acc =>
        cases acc with
        | true => rfl
        | false => exact ih (Nat.lt_of_succ_lt_succ enough)

def withHash (obj : SharedObject) (hash : UInt32) (indices : List UInt32) : List UInt32 :=
  indices.filter fun index => obj.chainWord index &&& ~~~1 = hash &&& ~~~1

theorem gnuLoop_step {hash : UInt32} {rest : List UInt32} (low : obj.symbolOffset ≤ index)
    (next : (if obj.chainWord index &&& 1 ≠ 0 then some (.ok none)
      else obj.gnuLoop probe hash fuel (index + 1)) =
        some (search probe (obj.withHash hash rest))) :
    obj.gnuLoop probe hash (fuel + 1) index =
      some (search probe (obj.withHash hash (index :: rest))) := by
  have word : obj.hashTable (obj.gnuChains + (index - obj.symbolOffset).toNat) =
      obj.chainWord index := by
    rw [chainWord, UInt32.toNat_sub_of_le _ _ low]
  simp only [gnuLoop, word, next]
  by_cases sameHash : obj.chainWord index &&& ~~~1 = hash &&& ~~~1
  · have kept : obj.withHash hash (index :: rest) = index :: obj.withHash hash rest :=
      filter_cons_of_pos (decide_eq_true sameHash)
    rw [if_pos sameHash, kept, search]
    cases probe index with
    | error fault => rfl
    | ok acc =>
      cases acc with
      | true => rfl
      | false => rfl
  · have skipped : obj.withHash hash (index :: rest) = obj.withHash hash rest :=
      filter_cons_of_neg (by simpa using sameHash)
    rw [if_neg sameHash, skipped]

theorem gnuLoop_eq {hash : UInt32} (run : obj.IsRun index indices)
    (enough : indices.length ≤ fuel) :
    obj.gnuLoop probe hash fuel index = some (search probe (obj.withHash hash indices)) := by
  induction run generalizing fuel with
  | @last index low marked =>
    obtain ⟨fuel, rfl⟩ := Nat.exists_eq_succ_of_ne_zero (ne_of_gt enough)
    apply gnuLoop_step low
    rw [if_pos marked]
    rfl
  | @cons index next rest low unmarked consecutive _ ih =>
    obtain ⟨fuel, rfl⟩ := Nat.exists_eq_succ_of_ne_zero
      (ne_of_gt ((Nat.succ_pos rest.length).trans_le enough))
    have following : index + 1 = next := by
      have inside := next.toNat_lt
      apply UInt32.toNat_inj.mp
      rw [consecutive]
      exact Nat.mod_eq_of_lt (consecutive ▸ inside)
    apply gnuLoop_step low
    rw [if_neg (not_not_intro unmarked), following]
    exact ih (Nat.le_of_succ_le_succ enough)

def visited (obj : SharedObject) (signedChar : Bool) (buckets : UInt32 → List UInt32)
    (str : List UInt8) : List UInt32 :=
  let hash := obj.codeHash signedChar str
  match obj.hashStyle with
  | .systemV => buckets (hash % obj.numBuckets)
  | .gnu => obj.withHash hash (buckets (hash % obj.numBuckets))

variable {buckets : UInt32 → List UInt32}

theorem resolveInObject_eq (table : obj.IsTable buckets) (signedChar : Bool)
    (str : List UInt8) (version : Option SymbolVersion)
    (enough : (buckets (obj.codeHash signedChar str % obj.numBuckets)).length < fuel) :
    obj.resolveInObject signedChar str version fuel =
      some (search (obj.probe str version) (obj.visited signedChar buckets str)) := by
  have pos : 0 < obj.numBuckets := UInt32.pos_iff_ne_zero.mpr table.numBuckets_ne
  have below : obj.codeHash signedChar str % obj.numBuckets < obj.numBuckets :=
    UInt32.mod_lt _ pos
  have isBucket := table.isBucket _ below
  cases style : obj.hashStyle with
  | systemV =>
    simp only [resolveInObject, visited, codeHash, IsBucket, style] at *
    have position : (2 + elf64Hash signedChar str % obj.numBuckets).toNat =
        2 + (elf64Hash signedChar str % obj.numBuckets).toNat := by
      have bound := table.numBuckets_lt
      have below := UInt32.lt_iff_toNat_lt.mp below
      rw [UInt32.toNat_add]
      change (2 + _) % 2 ^ 32 = 2 + _
      omega
    rw [position]
    exact systemVLoop_eq isBucket enough
  | gnu =>
    simp only [resolveInObject, visited, codeHash, IsBucket, style] at *
    obtain ⟨empty, isRun, _⟩ := isBucket
    by_cases first : obj.hashTable (obj.gnuBuckets +
        (gnuHash signedChar str % obj.numBuckets).toNat) = 0
    · rw [if_pos first, empty first]
      rfl
    · rw [if_neg first]
      exact gnuLoop_eq (isRun first) enough.le

def Hashed (obj : SharedObject) (buckets : UInt32 → List UInt32) (index : UInt32) : Prop :=
  ∃ bucket < obj.numBuckets, index ∈ buckets bucket

/-- The computed hash selects the right bucket and, in a GNU table, is the hash of the symbols. -/
def Leads (obj : SharedObject) (signedChar : Bool) (str : List UInt8) : Prop :=
  obj.codeHash signedChar str % obj.numBuckets = obj.standardHash str % obj.numBuckets ∧
    match obj.hashStyle with
    | .systemV => True
    | .gnu => gnuHash signedChar str &&& ~~~1 = gnuHash false str &&& ~~~1

theorem IsTable.visited_iff (table : obj.IsTable buckets) (signedChar : Bool)
    (hashed : obj.Hashed buckets index) :
    index ∈ obj.visited signedChar buckets (obj.stringOf index) ↔
      obj.Leads signedChar (obj.stringOf index) := by
  obtain ⟨bucket, below, mem⟩ := hashed
  have pos : 0 < obj.numBuckets := UInt32.pos_iff_ne_zero.mpr table.numBuckets_ne
  have placed := table.placed bucket below index mem
  have inBucket : index ∈ buckets (obj.codeHash signedChar (obj.stringOf index) %
      obj.numBuckets) ↔ obj.codeHash signedChar (obj.stringOf index) %
        obj.numBuckets = obj.standardHash (obj.stringOf index) % obj.numBuckets := by
    constructor
    · intro inCode
      exact (table.placed _ (UInt32.mod_lt _ pos) index inCode).symm
    · intro sameBucket
      rw [sameBucket, placed]
      exact mem
  have isBucket := table.isBucket bucket below
  cases style : obj.hashStyle with
  | systemV =>
    simp only [visited, Leads, style, and_true]
    exact inBucket
  | gnu =>
    simp only [IsBucket, style] at isBucket
    have word := isBucket.2.2 index mem
    have code : obj.codeHash signedChar (obj.stringOf index) =
        gnuHash signedChar (obj.stringOf index) := by
      simp only [codeHash, style]
    rw [code] at inBucket
    simp only [visited, Leads, style, withHash, mem_filter, decide_eq_true_eq, word, code]
    exact and_congr inBucket eq_comm

theorem extend_of_lt {char : UInt8} (ascii : char < 128) (signedChar : Bool) :
    extend signedChar char = char.toUInt32 := by
  rw [extend, if_neg]
  rintro ⟨_, high⟩
  exact absurd ascii (UInt8.not_lt.mpr high)

theorem leads_of_ascii {str : List UInt8} (ascii : ∀ char ∈ str, char < 128)
    (signedChar : Bool) : obj.Leads signedChar str := by
  have sameExtend : ∀ char ∈ str, extend signedChar char = extend false char := by
    intro char mem
    rw [extend_of_lt (ascii char mem), extend_of_lt (ascii char mem)]
  have sameElf : elf64Hash signedChar str = elf64Hash false str := by
    apply foldl_ext
    intro h char mem
    rw [sameExtend char mem]
  have sameGnu : gnuHash signedChar str = gnuHash false str := by
    apply foldl_ext
    intro h char mem
    rw [sameExtend char mem]
  unfold Leads codeHash standardHash
  split
  · exact ⟨by rw [sameElf], trivial⟩
  · exact ⟨by rw [sameGnu], by rw [sameGnu]⟩

end Mlibc.Symbols.SharedObject
