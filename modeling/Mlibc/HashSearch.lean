import Mathlib.Data.List.GetD
import Mlibc.RingProbe

/-!
# The hash table of `hsearch_r`

The model of `hcreate_r` and `hsearch_r` for any hash function.  An address is the index of a
bucket.
-/

namespace Mlibc.HashSearch

structure Entry (Data : Type) where
  key : List UInt8
  data : Data
  deriving DecidableEq

/-- `FIND` and `ENTER`. -/
inductive Action where
  | find
  | enter
  deriving DecidableEq

inductive Failure where
  | esrch
  | enomem
  deriving DecidableEq

/-- `struct hsearch_data` with its buckets. -/
structure Table (Data : Type) where
  table : List (Option (Entry Data))
  filled : Nat
  size : Nat
  deriving DecidableEq

variable {Data : Type}

def hcreateR (numEntries : Nat) : Table Data := ⟨List.replicate numEntries none, 0, numEntries⟩

/-- The first loop of `hsearch_r`: the returned entry or error, or none if it is left with
`break`. -/
def scan (htab : Table Data) (key : List UInt8) (action : Action) (start : Nat) :
    Nat → Nat → Option (Option (Except Failure Nat))
  | 0, _ => none
  | fuel + 1, bucketIndex =>
    let next := (bucketIndex + 1) % htab.size
    let advance :=
      if next = start then
        match action with
        | .find => some (some (.error .esrch))
        | .enter => some none
      else scan htab key action start fuel next
    match htab.table[bucketIndex]?, action with
    | none, _ => none
    | some (some entry), _ =>
      if entry.key = key then some (some (.ok bucketIndex)) else advance
    | some none, .find => some (some (.error .esrch))
    | some none, .enter => advance

def place (htab : Table Data) (item : Entry Data) : Nat → Nat → Option (Nat × Table Data)
  | 0, _ => none
  | fuel + 1, bucketIndex =>
    match htab.table[bucketIndex]? with
    | none => none
    | some none =>
      some (bucketIndex, { htab with table := htab.table.set bucketIndex (some item) })
    | some (some _) => place htab item fuel ((bucketIndex + 1) % htab.size)

def hsearchR (hash : List UInt8 → Nat) (fuel : Nat) (item : Entry Data) (action : Action)
    (htab : Table Data) : Option (Except Failure Nat × Table Data) := do
  let start := hash item.key % htab.size
  match ← scan htab item.key action start fuel start with
  | some result => return (result, htab)
  | none =>
    if htab.size = htab.filled then
      return (.error .enomem, htab)
    else
      let (bucketIndex, next) ←
        place { htab with filled := htab.filled + 1 } item fuel start
      return (.ok bucketIndex, next)

open RingProbe

def Table.bucket (htab : Table Data) (i : Nat) : Option (Entry Data) := htab.table.getD i none

theorem getElem?_of_lt {htab : Table Data} {i : Nat} (within : i < htab.table.length) :
    htab.table[i]? = some (htab.bucket i) := by
  rw [Table.bucket, List.getD_eq_getElem _ _ within, List.getElem?_eq_getElem within]

def Table.add (htab : Table Data) (i : Nat) (item : Entry Data) : Table Data :=
  { htab with table := htab.table.set i (some item), filled := htab.filled + 1 }

@[simp]
theorem size_add (htab : Table Data) (i : Nat) (item : Entry Data) :
    (htab.add i item).size = htab.size :=
  rfl

theorem bucket_add {htab : Table Data} {i : Nat} (within : i < htab.table.length)
    (item : Entry Data) (j : Nat) :
    (htab.add i item).bucket j = if j = i then some item else htab.bucket j := by
  simp only [Table.add, Table.bucket, List.getD_eq_getElem?_getD, List.getElem?_set]
  split_ifs with same other
  · rfl
  · exact absurd same.symm other
  · next here => exact absurd here.symm same
  · rfl

section Loops

variable {htab : Table Data} {key : List UInt8} {action : Action} {start : Nat}

def Stops (key : List UInt8) (action : Action) : Option (Entry Data) → Prop
  | some entry => entry.key = key
  | none => action = .find

def stopped (bucketIndex : Nat) : Option (Entry Data) → Except Failure Nat
  | some _ => .ok bucketIndex
  | none => .error .esrch

def exhausted : Action → Option (Except Failure Nat)
  | .find => some (.error .esrch)
  | .enter => none

variable {bucket : Option (Entry Data)}

theorem scan_stop {bucketIndex fuel : Nat} (here : htab.table[bucketIndex]? = some bucket)
    (stops : Stops key action bucket) :
    scan htab key action start (fuel + 1) bucketIndex =
      some (some (stopped bucketIndex bucket)) := by
  cases bucket with
  | some entry =>
    have same : entry.key = key := stops
    simp only [scan, here, if_pos same, stopped]
  | none =>
    have isFind : action = .find := stops
    subst isFind
    simp only [scan, here, stopped]

theorem scan_advance {bucketIndex fuel : Nat} (here : htab.table[bucketIndex]? = some bucket)
    (passes : ¬Stops key action bucket) :
    scan htab key action start (fuel + 1) bucketIndex =
      if (bucketIndex + 1) % htab.size = start then some (exhausted action)
      else scan htab key action start fuel ((bucketIndex + 1) % htab.size) := by
  cases bucket with
  | some entry =>
    have apart : ¬entry.key = key := passes
    simp only [scan, here, if_neg apart]
    cases action <;> rfl
  | none =>
    have isEnter : action = .enter := by
      cases action with
      | find => exact absurd rfl passes
      | enter => rfl
    subst isEnter
    simp only [scan, here]
    rfl

variable (whole : htab.table.length = htab.size) (startLt : start < htab.size)

include whole startLt

theorem bucket_position (dist : Nat) : htab.table[position htab.size start dist]? =
      some (htab.bucket (position htab.size start dist)) := by
  apply getElem?_of_lt
  rw [whole]
  exact position_lt (Nat.zero_lt_of_lt startLt) dist

theorem scan_first {dist target fuel : Nat} (le : dist ≤ target)
    (targetLt : target < htab.size) (enough : target - dist < fuel)
    (stops : Stops key action (htab.bucket (position htab.size start target)))
    (passes : ∀ d, dist ≤ d → d < target →
      ¬Stops key action (htab.bucket (position htab.size start d))) :
    scan htab key action start fuel (position htab.size start dist) =
      some (some (stopped (position htab.size start target)
        (htab.bucket (position htab.size start target)))) := by
  induction fuel generalizing dist with
  | zero => omega
  | succ fuel ih =>
    by_cases arrived : dist = target
    · subst arrived
      exact scan_stop (bucket_position whole startLt dist) stops
    rw [scan_advance (bucket_position whole startLt dist)
      (passes dist le_rfl (by omega)), position_succ, if_neg]
    · apply ih (by omega) (by omega)
      intro d dLe dLt
      exact passes d (by omega) dLt
    · rw [position_eq_start_iff startLt (by omega) (by omega)]
      omega

theorem scan_none {dist fuel : Nat} (within : dist < htab.size) (enough : htab.size - dist ≤ fuel)
    (passes : ∀ d, dist ≤ d → d < htab.size →
      ¬Stops key action (htab.bucket (position htab.size start d))) :
    scan htab key action start fuel (position htab.size start dist) = some (exhausted action) := by
  induction fuel generalizing dist with
  | zero => omega
  | succ fuel ih =>
    rw [scan_advance (bucket_position whole startLt dist)
      (passes dist le_rfl within), position_succ]
    by_cases last : dist + 1 = htab.size
    · rw [if_pos ((position_eq_start_iff startLt (by omega) (by omega)).mpr last)]
    rw [if_neg (mt (position_eq_start_iff startLt (by omega) (by omega)).mp last)]
    apply ih (by omega) (by omega)
    intro d dLe dLt
    exact passes d (by omega) dLt

theorem place_first {item : Entry Data} {dist target fuel : Nat} (le : dist ≤ target)
    (enough : target - dist < fuel)
    (unused : htab.bucket (position htab.size start target) = none)
    (used : ∀ d, dist ≤ d → d < target → htab.bucket (position htab.size start d) ≠ none) :
    place htab item fuel (position htab.size start dist) = some (position htab.size start target,
        { htab with
          table := htab.table.set (position htab.size start target) (some item) }) := by
  induction fuel generalizing dist with
  | zero => omega
  | succ fuel ih =>
    have here := bucket_position whole startLt dist
    by_cases arrived : dist = target
    · subst arrived
      rw [unused] at here
      simp only [place, here]
    obtain ⟨entry, isUsed⟩ :=
      Option.ne_none_iff_exists'.mp (used dist le_rfl (by omega))
    rw [isUsed] at here
    simp only [place, here]
    rw [position_succ]
    apply ih (by omega) (by omega)
    intro d dLe dLt
    exact used d (by omega) dLt

end Loops

end Mlibc.HashSearch
