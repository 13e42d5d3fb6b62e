import Mathlib.Data.UInt

/-!
# Files as lists with a position

A write behind the end of a file fills the gap with zeros.
-/

namespace Mlibc

open List

variable {α : Type}

/-! ### Parts of a list -/

def segment (list : List α) (first last : Nat) : List α := (list.drop first).take (last - first)

theorem length_segment {list : List α} {first last : Nat} (inside : last ≤ list.length) :
    (segment list first last).length = last - first := by
  simp only [segment, length_take, length_drop]
  omega

theorem getElem?_segment (list : List α) (first last index : Nat) :
    (segment list first last)[index]? =
      if index < last - first then list[first + index]? else none := by
  simp [segment, getElem?_take]

@[simp]
theorem segment_self (list : List α) (position : Nat) : segment list position position = [] := by
  simp [segment]

theorem segment_append (list : List α) {first middle last : Nat} (ordered : first ≤ middle)
    (ordered' : middle ≤ last) :
    segment list first middle ++ segment list middle last = segment list first last := by
  have split : last - first = (middle - first) + (last - middle) := by omega
  have dropped : list.drop middle = (list.drop first).drop (middle - first) := by
    rw [drop_drop, Nat.add_sub_cancel' ordered]
  rw [segment, segment, segment, split, take_add, dropped]

theorem take_segment (list : List α) {first last count : Nat} (fits : count ≤ last - first) :
    (segment list first last).take count = segment list first (first + count) := by
  rw [segment, segment, take_take, Nat.add_sub_cancel_left, Nat.min_eq_left fits]

def overwrite (list : List α) (position : Nat) (elements : List α) : List α :=
  list.take position ++ elements ++ list.drop (position + elements.length)

section Overwrite

variable {list elements : List α} {position : Nat} (inside : position ≤ list.length)
include inside

theorem getElem?_overwrite (index : Nat) : (overwrite list position elements)[index]? =
      if index < position then list[index]?
      else if index < position + elements.length then elements[index - position]?
      else list[index]? := by
  have taken : (list.take position).length = position := length_take_of_le inside
  rw [overwrite, append_assoc]
  by_cases before : index < position
  · rw [getElem?_append_left (by omega), getElem?_take_of_lt before, if_pos before]
  rw [getElem?_append_right (by omega), taken, if_neg before]
  by_cases within : index < position + elements.length
  · rw [getElem?_append_left (by omega), if_pos within]
  · rw [getElem?_append_right (by omega), getElem?_drop, if_neg within]
    congr 1
    omega

theorem length_overwrite :
    (overwrite list position elements).length = max list.length (position + elements.length) := by
  simp only [overwrite, length_append, length_take, length_drop]
  omega

theorem segment_overwrite {first : Nat} (before : first ≤ position) :
    segment (overwrite list position elements) first (position + elements.length) =
      segment list first position ++ elements := by
  apply ext_getElem?
  intro index
  have length : (segment list first position).length = position - first := length_segment inside
  rw [getElem?_segment, getElem?_overwrite inside]
  by_cases early : index < position - first
  · rw [getElem?_append_left (by omega), getElem?_segment, if_pos (by omega),
      if_pos (by omega), if_pos early]
  rw [getElem?_append_right (by omega)]
  by_cases within : index < position + elements.length - first
  · rw [if_pos within, if_neg (by omega), if_pos (by omega)]
    congr 1
    omega
  · rw [if_neg within, getElem?_eq_none (by omega)]

end Overwrite

/-! ### Files -/

inductive Whence where
  | seekSet
  | seekCur
  | seekEnd
  | other
  deriving DecidableEq

/-- A file that is read and written at its position. -/
@[ext]
structure ByteFile (α : Type) where
  contents : List α
  position : Nat
  deriving DecidableEq

namespace ByteFile

def peek (file : ByteFile α) (count : Nat) : List α :=
  (file.contents.drop file.position).take count

def advance (file : ByteFile α) (count : Nat) : ByteFile α :=
  { file with position := file.position + count }

def seek (file : ByteFile α) (offset : Int) (whence : Whence) : Option (ByteFile α) :=
  let target :=
    match whence with
    | .seekSet => some offset
    | .seekCur => some (file.position + offset)
    | .seekEnd => some (file.contents.length + offset)
    | .other => none
  match target with
  | some (.ofNat position) => some { file with position }
  | _ => none

theorem seek_eq_some {file : ByteFile α} {offset : Int} {position : Nat}
    (target : (file.position : Int) + offset = position) :
    file.seek offset .seekCur = some { file with position } := by
  simp only [seek, target]

theorem getElem?_peek (file : ByteFile α) (count index : Nat) : (file.peek count)[index]? =
      if index < count then file.contents[file.position + index]? else none := by
  simp [peek, getElem?_take]

variable [Zero α]

def written (contents : List α) (position : Nat) (elements : List α) : List α :=
  overwrite (contents ++ List.replicate (position - contents.length) 0) position elements

def write (file : ByteFile α) (elements : List α) : ByteFile α :=
  ⟨written file.contents file.position elements, file.position + elements.length⟩

theorem getElem?_written (contents : List α) (position : Nat) (elements : List α) (index : Nat) :
    (written contents position elements)[index]? =
      if index < position then some (contents[index]?.getD 0)
      else if index < position + elements.length then elements[index - position]?
      else contents[index]? := by
  have padded : position ≤ (contents ++ replicate (position - contents.length) (0 : α)).length := by
    simp only [length_append, length_replicate]
    omega
  rw [written, getElem?_overwrite padded]
  by_cases inside : index < contents.length
  · rw [getElem?_append_left inside, getElem?_eq_getElem inside, Option.getD_some]
  have absent : contents[index]? = none := getElem?_eq_none (by omega)
  rw [getElem?_append_right (by omega), getElem?_replicate, absent]
  split_ifs
  all_goals first | rfl | omega

theorem written_append (contents : List α) (position : Nat) (first second : List α) :
    written contents position (first ++ second) =
      written (written contents position first) (position + first.length) second := by
  apply ext_getElem?
  intro index
  simp only [getElem?_written, length_append]
  by_cases before : index < position
  · rw [if_pos before, if_pos (by omega), if_pos before, Option.getD_some]
  by_cases within : index < position + first.length
  · rw [if_neg before, if_pos (by omega), if_pos within, if_neg before, if_pos within,
      getElem?_append_left (by omega), getElem?_eq_getElem (by omega),
      Option.getD_some]
  rw [if_neg before, if_neg within, getElem?_append_right (by omega)]
  rw [if_neg before, if_neg within]
  have sameIndex : index - position - first.length = index - (position + first.length) := by
    omega
  rw [sameIndex, add_assoc]

theorem written_same {contents elements : List α} {position : Nat}
    (inside : position + elements.length ≤ contents.length)
    (same : ∀ index < elements.length, contents[position + index]? = elements[index]?) :
    written contents position elements = contents := by
  apply ext_getElem?
  intro index
  rw [getElem?_written]
  by_cases before : index < position
  · rw [if_pos before, getElem?_eq_getElem (by omega), Option.getD_some]
  rw [if_neg before]
  by_cases within : index < position + elements.length
  · rw [if_pos within, ← same (index - position) (by omega), Nat.add_sub_cancel' (by omega)]
  · rw [if_neg within]

end ByteFile

end Mlibc
