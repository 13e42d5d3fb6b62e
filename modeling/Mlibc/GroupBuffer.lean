import Mathlib.Tactic.Ring
import Mlibc.Errno

/-!
# Group entries in the buffer of the caller

`copy_to_buffer` of `options/posix/generic/grp.cpp`; it writes pointers and strings at addresses.
-/

namespace Mlibc.GroupBuffer

open List

/-- An entry of the group file. -/
structure Group where
  name : List UInt8
  passwd : List UInt8
  gid : Nat
  members : List (List UInt8)
  deriving DecidableEq

/-- What is written at an address. -/
inductive Object where
  | pointer (target : Nat)
  | text (bytes : List UInt8)
  deriving DecidableEq

structure Write where
  address : Nat
  object : Object
  deriving DecidableEq

/-- What `copy_to_buffer` does: `__ensure` fails when the buffer is written already. -/
inductive Outcome where
  | fails (err : Errno)
  | ensureFails (writes : List Write)
  | stores (mem name passwd : Nat) (writes : List Write)
  deriving DecidableEq

def Outcome.writes : Outcome → List Write
  | .fails _ => []
  | .ensureFails writes | .stores _ _ _ writes => writes

variable (pointerSize : Nat)

def Write.size (write : Write) : Nat :=
  match write.object with
  | .pointer _ => pointerSize
  | .text bytes => bytes.length + 1

def textSize (texts : List (List UInt8)) : Nat := (texts.map fun text => text.length + 1).sum

def requiredSize (group : Group) : Nat :=
  (group.members.map fun member => member.length + 1 + pointerSize).sum +
    (group.name.length + 1 + pointerSize)

def copyMembers : Nat → Nat → List (List UInt8) → List Write
  | _, _, [] => []
  | slot, stringData, member :: members =>
    ⟨slot, .pointer stringData⟩ :: ⟨stringData, .text member⟩ ::
      copyMembers (slot + pointerSize) (stringData + member.length + 1) members

/-- The number that is added to the address; the mask is that of the bits below `sizeof(char *)`. -/
def offset (buf : Nat) : Nat :=
  (buf % pointerSize + (pointerSize - 1)) / pointerSize * pointerSize

def nameAddress (group : Group) (mem : Nat) : Nat :=
  mem + (group.members.length + 1) * pointerSize + textSize group.members

def passwdAddress (group : Group) (mem : Nat) : Nat :=
  nameAddress pointerSize group mem + (group.name.length + 1)

def layout (group : Group) (mem : Nat) : List Write :=
  copyMembers pointerSize mem (mem + (group.members.length + 1) * pointerSize) group.members ++
    [⟨mem + group.members.length * pointerSize, .pointer 0⟩,
      ⟨nameAddress pointerSize group mem, .text group.name⟩,
      ⟨passwdAddress pointerSize group mem, .text group.passwd⟩]

def copyToBuffer (group : Group) (buf size : Nat) : Outcome :=
  let offset := offset pointerSize buf
  if size < offset then .fails .erange
  else
    let buf := buf + offset
    let size := size - offset
    let passwd := passwdAddress pointerSize group buf
    if size < requiredSize pointerSize group then .fails .erange
    else if passwd + (group.passwd.length + 1) ≤ buf + size then
      .stores buf (nameAddress pointerSize group buf) passwd (layout pointerSize group buf)
    else .ensureFails (layout pointerSize group buf)

/-- `getgrgid_r` and `getgrnam_r`: the first entry of the file that meets the condition is
copied. -/
def getgr (cond : Group → Bool) (entries : List Group) (buf size : Nat) : Outcome :=
  match entries.find? cond with
  | none => .fails (.other 3)
  | some group => copyToBuffer pointerSize group buf size

def getgrgidR (gid : Nat) : List Group → Nat → Nat → Outcome :=
  getgr pointerSize fun group => group.gid = gid

def getgrnamR (name : List UInt8) : List Group → Nat → Nat → Outcome :=
  getgr pointerSize fun group => group.name = name

/-! ### What the functions should do -/

def neededSize (group : Group) (buf : Nat) : Nat :=
  (pointerSize - buf % pointerSize) % pointerSize +
    (requiredSize pointerSize group + (group.passwd.length + 1))

def Disjoint (first second : Write) : Prop :=
  first.address + first.size pointerSize ≤ second.address ∨
    second.address + second.size pointerSize ≤ first.address

/-- The pointers and strings of an entry are at aligned, disjoint places. -/
structure Represents (group : Group) (mem name passwd : Nat) (writes : List Write) : Prop where
  aligned : mem % pointerSize = 0
  disjoint : writes.Pairwise (Disjoint pointerSize)
  members : ∀ i (inside : i < group.members.length), ∃ target,
    ⟨mem + i * pointerSize, .pointer target⟩ ∈ writes ∧ ⟨target, .text (group.members[i])⟩ ∈ writes
  last : ⟨mem + group.members.length * pointerSize, .pointer 0⟩ ∈ writes
  name : ⟨name, .text group.name⟩ ∈ writes
  passwd : ⟨passwd, .text group.passwd⟩ ∈ writes

/-- Only the buffer is written, and the outcome tells whether the entry fits. -/
structure Copies (group : Group) (buf size : Nat) (outcome : Outcome) : Prop where
  inside : ∀ write ∈ outcome.writes,
    buf ≤ write.address ∧ write.address + write.size pointerSize ≤ buf + size
  short : size < neededSize pointerSize group buf → outcome = .fails .erange
  fits : neededSize pointerSize group buf ≤ size → ∃ mem name passwd writes,
    outcome = .stores mem name passwd writes ∧ Represents pointerSize group mem name passwd writes

section Layout

variable {pointerSize}

theorem requiredSize_eq (group : Group) : requiredSize pointerSize group =
    (group.members.length + 1) * pointerSize + textSize group.members +
      (group.name.length + 1) := by
  have members : (group.members.map fun member => member.length + 1 + pointerSize).sum =
      group.members.length * pointerSize + textSize group.members := by
    induction group.members with
    | nil => simp [textSize]
    | cons member members ih =>
      simp only [textSize, map_cons, sum_cons, length_cons] at ih ⊢
      rw [ih]
      ring
  rw [requiredSize, members]
  ring

theorem offset_of_aligned {buf : Nat} (aligned : buf % pointerSize = 0) :
    offset pointerSize buf = 0 := by
  obtain rfl | pos := eq_zero_or_pos pointerSize
  · simp [offset]
  · rw [offset, Nat.div_eq_of_lt (by omega), zero_mul]

theorem offset_of_unaligned {buf : Nat} (pos : 0 < pointerSize)
    (unaligned : buf % pointerSize ≠ 0) : offset pointerSize buf = pointerSize := by
  have below := Nat.mod_lt buf pos
  rw [offset, Nat.div_eq_of_lt_le (k := 1) (by omega) (by omega), one_mul]

variable {members : List (List UInt8)} {slot stringData : Nat}

theorem mem_copyMembers {write : Write}
    (member : write ∈ copyMembers pointerSize slot stringData members) :
    slot ≤ write.address ∧
        write.address + write.size pointerSize ≤ slot + members.length * pointerSize ∨
      stringData ≤ write.address ∧
        write.address + write.size pointerSize ≤ stringData + textSize members := by
  induction members generalizing slot stringData with
  | nil => cases member
  | cons text members ih =>
    have size : textSize (text :: members) = text.length + 1 + textSize members := by
      simp [textSize]
    have length : (text :: members).length * pointerSize =
        pointerSize + members.length * pointerSize := by
      rw [length_cons]
      ring
    rw [copyMembers, mem_cons, mem_cons] at member
    obtain rfl | rfl | later := member
    · exact .inl ⟨le_rfl, by simp only [Write.size]; omega⟩
    · exact .inr ⟨le_rfl, by simp only [Write.size]; omega⟩
    · have bounds := ih later
      omega

theorem copyMembers_disjoint
    (behind : slot + members.length * pointerSize ≤ stringData) :
    (copyMembers pointerSize slot stringData members).Pairwise (Disjoint pointerSize) := by
  induction members generalizing slot stringData with
  | nil => exact List.Pairwise.nil
  | cons text members ih =>
    have length : (text :: members).length * pointerSize =
        pointerSize + members.length * pointerSize := by
      rw [length_cons]
      ring
    refine List.Pairwise.cons ?_ (List.Pairwise.cons ?_ (ih (by omega)))
    · intro write member
      obtain rfl | later := mem_cons.mp member
      · left
        simp only [Write.size]
        omega
      have bounds := mem_copyMembers later
      left
      simp only [Write.size]
      omega
    · intro write later
      have bounds := mem_copyMembers later
      unfold Disjoint
      simp only [Write.size] at bounds ⊢
      omega

theorem copyMembers_member {i : Nat} (inside : i < members.length) : ∃ target,
    ⟨slot + i * pointerSize, .pointer target⟩ ∈ copyMembers pointerSize slot stringData members ∧
      ⟨target, .text members[i]⟩ ∈ copyMembers pointerSize slot stringData members := by
  induction members generalizing slot stringData i with
  | nil => cases inside
  | cons text members ih =>
    cases i with
    | zero => exact ⟨stringData, by simp [copyMembers], by simp [copyMembers]⟩
    | succ i =>
      obtain ⟨target, pointer, isText⟩ := @ih (slot + pointerSize)
        (stringData + text.length + 1) i (Nat.lt_of_succ_lt_succ inside)
      refine ⟨target, ?_, ?_⟩
      · rw [show slot + (i + 1) * pointerSize = slot + pointerSize + i * pointerSize by ring]
        exact mem_cons_of_mem _ (mem_cons_of_mem _ pointer)
      · exact mem_cons_of_mem _ (mem_cons_of_mem _ isText)

variable {group : Group} {mem buf size : Nat}

theorem passwdAddress_eq : passwdAddress pointerSize group mem =
    mem + requiredSize pointerSize group := by
  rw [passwdAddress, nameAddress, requiredSize_eq]
  ring

theorem layout_represents (aligned : mem % pointerSize = 0) :
    Represents pointerSize group mem (nameAddress pointerSize group mem)
      (passwdAddress pointerSize group mem) (layout pointerSize group mem) := by
  have length : (group.members.length + 1) * pointerSize =
      group.members.length * pointerSize + pointerSize := by ring
  refine ⟨aligned, ?_, ?_, by simp [layout], by simp [layout], by simp [layout]⟩
  · refine pairwise_append.mpr ⟨copyMembers_disjoint (by omega), ?_, ?_⟩
    · simp only [pairwise_cons, mem_cons, not_mem_nil, forall_eq_or_imp, Disjoint,
        Write.size, passwdAddress, nameAddress, false_implies, implies_true,
        List.Pairwise.nil, and_true]
      omega
    intro first member second last
    have bounds := mem_copyMembers member
    simp only [mem_cons, not_mem_nil, or_false] at last
    unfold Disjoint
    obtain rfl | rfl | rfl := last <;>
      simp only [Write.size, passwdAddress, nameAddress] at bounds ⊢ <;> omega
  · intro i inside
    obtain ⟨target, pointer, isText⟩ := copyMembers_member inside
    exact ⟨target, mem_append_left _ pointer, mem_append_left _ isText⟩

theorem layout_inside {write : Write} (member : write ∈ layout pointerSize group mem) :
    mem ≤ write.address ∧ write.address + write.size pointerSize ≤
      mem + requiredSize pointerSize group + (group.passwd.length + 1) := by
  have length : (group.members.length + 1) * pointerSize =
      group.members.length * pointerSize + pointerSize := by ring
  rw [requiredSize_eq]
  rw [layout, mem_append] at member
  obtain member | last := member
  · have bounds := mem_copyMembers member
    omega
  · simp only [mem_cons, not_mem_nil, or_false] at last
    obtain rfl | rfl | rfl := last <;> simp only [Write.size, passwdAddress, nameAddress] <;> omega

theorem copyToBuffer_eq : copyToBuffer pointerSize group buf size =
    if size < offset pointerSize buf + requiredSize pointerSize group then .fails .erange
    else if offset pointerSize buf + requiredSize pointerSize group +
        (group.passwd.length + 1) ≤ size then
      .stores (buf + offset pointerSize buf)
        (nameAddress pointerSize group (buf + offset pointerSize buf))
        (passwdAddress pointerSize group (buf + offset pointerSize buf))
        (layout pointerSize group (buf + offset pointerSize buf))
    else .ensureFails (layout pointerSize group (buf + offset pointerSize buf)) := by
  simp only [copyToBuffer, passwdAddress_eq]
  split_ifs <;> first
    | rfl
    | omega

def Sound (pointerSize : Nat) (group : Group) (buf size : Nat) : Prop :=
  if buf % pointerSize = 0 then
    size < requiredSize pointerSize group ∨ neededSize pointerSize group buf ≤ size
  else
    size < pointerSize + requiredSize pointerSize group ∧ size < neededSize pointerSize group buf

theorem copyToBuffer_copies_iff (pos : 0 < pointerSize) :
    Copies pointerSize group buf size (copyToBuffer pointerSize group buf size) ↔
      Sound pointerSize group buf size := by
  have pad : (pointerSize - buf % pointerSize) % pointerSize =
      if buf % pointerSize = 0 then 0 else pointerSize - buf % pointerSize := by
    split_ifs with aligned
    · rw [aligned, Nat.sub_zero, Nat.mod_self]
    · exact Nat.mod_eq_of_lt (by omega)
  rw [copyToBuffer_eq]
  unfold Sound
  by_cases aligned : buf % pointerSize = 0
  · rw [offset_of_aligned aligned, zero_add]
    have needed : neededSize pointerSize group buf =
        requiredSize pointerSize group + (group.passwd.length + 1) := by
      rw [neededSize, pad, if_pos aligned, zero_add]
    rw [needed]
    split_ifs with short long
    · exact iff_of_true ⟨by simp [Outcome.writes], fun _ => rfl,
        fun fits => by omega⟩ (.inl short)
    · refine iff_of_true ⟨fun write member => ?_, fun tooShort => by omega,
        fun _ => ⟨_, _, _, _, rfl, layout_represents aligned⟩⟩ (.inr long)
      have bounds := layout_inside member
      omega
    · refine iff_of_false (fun copies => ?_) (by omega)
      cases copies.short (by omega)
  rw [offset_of_unaligned pos aligned]
  split_ifs with short long
  · refine ⟨fun copies => ⟨short, ?_⟩, fun sound => ?_⟩
    · by_contra fits
      obtain ⟨_, _, _, _, stores, _⟩ := copies.fits (by omega)
      cases stores
    · exact ⟨by simp [Outcome.writes], fun _ => rfl, fun fits => by omega⟩
  all_goals
    refine iff_of_false (fun copies => ?_) (by omega)
    obtain tooShort | fits := lt_or_ge size (neededSize pointerSize group buf)
    · cases copies.short tooShort
    obtain ⟨_, _, _, _, stores, rep⟩ := copies.fits fits
  · cases stores
    exact aligned (by simpa using rep.aligned)
  · cases stores

end Layout

/-- The entry is copied or the buffer refused as it should be, exactly if the computed size is
right. -/
theorem getgr_copies_iff (positive : 0 < pointerSize) {cond : Group → Bool} {entries : List Group}
    {group : Group} (found : entries.find? cond = some group) {buf size : Nat} :
    Copies pointerSize group buf size (getgr pointerSize cond entries buf size) ↔
      Sound pointerSize group buf size := by
  simp only [getgr, found]
  exact copyToBuffer_copies_iff positive

def exampleGroup : Group := ⟨[103], [120], 7, [[109]]⟩

theorem getgr_copies_fits :
    Copies 8 exampleGroup 64 22 (getgrgidR 8 7 [exampleGroup] 64 22) :=
  (getgr_copies_iff 8 (by decide) rfl).mpr (.inr (by decide))

/-- A room that ends inside of the last name, and a buffer that is not aligned. -/
theorem getgr_copies_not :
    ¬Copies 8 exampleGroup 64 20 (getgrnamR 8 [103] [exampleGroup] 64 20) ∧
      ¬Copies 8 exampleGroup 65 40 (getgrnamR 8 [103] [exampleGroup] 65 40) := by
  refine ⟨fun copies => ?_, fun copies => ?_⟩
  · cases copies.short (by decide)
  · obtain ⟨_, _, _, _, stores, rep⟩ := copies.fits (by decide)
    cases stores
    exact absurd rep.aligned (by decide)

end Mlibc.GroupBuffer
