import Mathlib.Data.Nat.Bitwise

/-!
# Replies of other processes

How the system calls of `sysdeps/pmos/generic` take a reply apart.  Behind the received bytes the
memory has any contents.
-/

namespace Mlibc.Pmos

open List

abbrev Memory := Nat → UInt8

def bytesAt (memory : Memory) (offset size : Nat) : List UInt8 :=
  (List.range size).map fun i => memory (offset + i)

def unsigned (memory : Memory) (offset size : Nat) : Nat :=
  (bytesAt memory offset size).foldr (fun byte value => byte.toNat + 256 * value) 0

def signed (memory : Memory) (offset size : Nat) : Int :=
  if unsigned memory offset size < 2 ^ (8 * size - 1) then unsigned memory offset size
  else unsigned memory offset size - 2 ^ (8 * size)

def eio : Int := 5

def erange : Int := 34

def econnreset : Int := 104

def genericResultNum : Nat := 0x03

def receiveRightDestroyedNum : Nat := 0x26

def checkGenericErrors (received : Nat) (reply : Memory) : Int :=
  if received < 4 then eio
  else if 8 ≤ received ∧ unsigned reply 0 4 = genericResultNum ∧ signed reply 4 4 < 0 then
    -signed reply 4 4
  else if 8 ≤ received ∧ unsigned reply 0 4 = receiveRightDestroyedNum then econnreset
  else 0

/-- The system calls that read a reply, with the sizes of the caller's buffers. -/
inductive Handler where
  | read (count : Nat)
  | write
  | seek
  | openFile
  | stat
  | ttyname (size : Nat)
  deriving DecidableEq

def Handler.replyNum : Handler → Nat
  | .read _ => 0x50
  | .write => 0x51
  | .seek => 0x52
  | .stat => 0x57
  | .openFile => 0x59
  | .ttyname _ => 0xE6

def Handler.replySize : Handler → Nat
  | .read _ | .ttyname _ => 8
  | .openFile => 12
  | .write | .seek => 16
  | .stat => 104

/-- The bytes that are in the buffer: those that fit into the structure, or the whole message. -/
def Handler.received (handler : Handler) (length : Nat) : Nat :=
  match handler with
  | .read _ | .ttyname _ => length
  | .write | .seek | .openFile | .stat => min length handler.replySize

/-- The checks of a reply behind the generic one; a reply that fails one is answered with `EIO`. -/
inductive Check where
  | kind
  | size

def Handler.checks : Handler → List Check
  | .write | .read _ => [.kind]
  | .seek | .stat => [.kind, .size]
  | .openFile | .ttyname _ => [.size, .kind]

def Handler.passes (handler : Handler) (length : Nat) (reply : Memory) : Check → Bool
  | .kind => unsigned reply 0 4 = handler.replyNum
  | .size => handler.replySize ≤ handler.received length

/-- What a system call returns for a reply that has passed the checks, and the bytes that it passes
on to its caller. -/
def Handler.values (handler : Handler) (length : Nat) (reply : Memory) : Int × List UInt8 :=
  match handler with
  | .write | .seek => (-signed reply 6 2, bytesAt reply 8 8)
  | .read _ =>
    if signed reply 6 2 ≠ 0 then (-signed reply 6 2, [])
    else (0, bytesAt reply 8 ((length + (2 ^ 64 - 8)) % 2 ^ 64))
  | .openFile =>
    if signed reply 4 4 < 0 then (-signed reply 4 4, []) else (0, bytesAt reply 8 4)
  | .stat => if signed reply 6 2 < 0 then (-signed reply 6 2, []) else (0, bytesAt reply 8 96)
  | .ttyname size =>
    if signed reply 4 2 < 0 then (-signed reply 4 2, [])
    else if length - 8 + 1 > size then (erange, [])
    else (0, bytesAt reply 8 (length - 8) ++ [0])

/-- What a system call does with a reply. -/
def Handler.outcome (handler : Handler) (length : Nat) (reply : Memory) : Int × List UInt8 :=
  if checkGenericErrors (handler.received length) reply ≠ 0 then
    (checkGenericErrors (handler.received length) reply, [])
  else if handler.checks.all (handler.passes length reply) then handler.values length reply
  else (eio, [])

/-- Nothing behind the received bytes matters, a short reply is an error, and `read` stores at most
`count` bytes. -/
structure Handler.Trusts (handler : Handler) (length : Nat) (reply : Memory) : Prop where
  received : ∀ other : Memory, (∀ i < length, other i = reply i) →
    handler.outcome length other = handler.outcome length reply
  short : length < handler.replySize → (handler.outcome length reply).1 ≠ 0
  bounded : ∀ count, handler = .read count → (handler.outcome length reply).2.length ≤ count

def Handler.Sound (length : Nat) (reply : Memory) : Handler → Prop
  | .write => unsigned reply 0 4 = 0x51 → 4 ≤ length → 16 ≤ length
  | .read count => unsigned reply 0 4 = 0x50 → 4 ≤ length →
      8 ≤ length ∧ (signed reply 6 2 = 0 → length - 8 ≤ count)
  | .seek | .openFile | .stat | .ttyname _ => True

section Replies

variable {length : Nat} {reply other : Memory}

section

variable {offset size : Nat} (agrees : ∀ i < length, other i = reply i)
  (inside : offset + size ≤ length)

include agrees inside

theorem bytesAt_congr : bytesAt other offset size = bytesAt reply offset size := by
  apply map_congr_left
  intro i mem
  rw [mem_range] at mem
  exact agrees _ (by omega)

theorem unsigned_congr : unsigned other offset size = unsigned reply offset size := by
  rw [unsigned, unsigned, bytesAt_congr agrees inside]

theorem signed_congr : signed other offset size = signed reply offset size := by
  rw [signed, signed, unsigned_congr agrees inside]

end

theorem checkGenericErrors_congr (agrees : ∀ i < length, other i = reply i) {received : Nat}
    (inside : received ≤ length) :
    checkGenericErrors received other = checkGenericErrors received reply := by
  unfold checkGenericErrors
  by_cases short : received < 4
  · rw [if_pos short, if_pos short]
  rw [unsigned_congr agrees (by omega)]
  by_cases isLong : 8 ≤ received
  · rw [signed_congr agrees (by omega)]
  · simp [isLong]

theorem four_le_of_checked {received : Nat} (checked : checkGenericErrors received reply = 0) :
    4 ≤ received := by
  unfold checkGenericErrors at checked
  split_ifs at checked with short
  · cases checked
  all_goals omega

theorem Handler.received_le (handler : Handler) : handler.received length ≤ length := by
  cases handler <;> simp only [received] <;> omega

theorem Handler.values_congr (handler : Handler) (isSize : length < 2 ^ 64)
    (full : handler.replySize ≤ length) (agrees : ∀ i < length, other i = reply i) :
    handler.values length other = handler.values length reply := by
  have eight : 8 ≤ length := Nat.le_trans (by cases handler <;> simp [replySize]) full
  have size : (length + (2 ^ 64 - 8)) % 2 ^ 64 = length - 8 := by omega
  have tail := bytesAt_congr agrees (show 8 + (length - 8) ≤ length by omega)
  have code := signed_congr agrees (show 6 + 2 ≤ length by omega)
  cases handler with
  | read count => simp only [values, code, size, tail]
  | ttyname size => simp only [values, signed_congr agrees (show 4 + 2 ≤ length by omega), tail]
  | write | seek => simp only [values, code, bytesAt_congr agrees (show 8 + 8 ≤ length from full)]
  | openFile =>
    simp only [values, signed_congr agrees (show 4 + 4 ≤ length by omega),
      bytesAt_congr agrees (show 8 + 4 ≤ length from full)]
  | stat => simp only [values, code, bytesAt_congr agrees (show 8 + 96 ≤ length from full)]

theorem Handler.full_of_passes (handler : Handler) (sound : handler.Sound length reply)
    (four : 4 ≤ length) (passes : handler.checks.all (handler.passes length reply)) :
    handler.replySize ≤ length := by
  have le : handler.received length ≤ length := handler.received_le
  have passed (check : Check) (isCheck : check ∈ handler.checks) :=
    all_eq_true.mp passes check isCheck
  cases handler with
  | write => exact sound (of_decide_eq_true (passed .kind (by simp [checks]))) four
  | read count => exact (sound (of_decide_eq_true (passed .kind (by simp [checks]))) four).1
  | seek | stat | openFile | ttyname =>
    exact Nat.le_trans (of_decide_eq_true (passed .size (by simp [checks]))) le

theorem Handler.outcome_congr (handler : Handler) (isSize : length < 2 ^ 64)
    (sound : handler.Sound length reply) (agrees : ∀ i < length, other i = reply i) :
    handler.outcome length other = handler.outcome length reply := by
  unfold outcome
  rw [checkGenericErrors_congr agrees handler.received_le]
  by_cases checked : checkGenericErrors (handler.received length) reply = 0
  swap
  · rw [if_pos checked, if_pos checked]
  rw [if_neg (not_not.mpr checked), if_neg (not_not.mpr checked)]
  have four := (four_le_of_checked checked).trans handler.received_le
  have same : handler.passes length other = handler.passes length reply := by
    ext check
    cases check with
    | kind => simp only [passes, unsigned_congr agrees (show 0 + 4 ≤ length by omega)]
    | size => rfl
  rw [same]
  split_ifs with passes
  · exact handler.values_congr isSize (handler.full_of_passes sound four passes) agrees
  · rfl

def filled (length : Nat) (reply : Memory) (byte : UInt8) : Memory :=
  fun i => if i < length then reply i else byte

theorem filled_agrees (byte : UInt8) : ∀ i < length, filled length reply byte i = reply i :=
  fun _ inside => if_pos inside

theorem signed_filled (reply : Memory) (short : length < 8) {byte : UInt8}
    (small : byte.toNat < 128) :
    ∃ low : Nat, low < 256 ∧
      signed (filled length reply byte) 6 2 = (low + 256 * byte.toNat : Nat) := by
  have last : filled length reply byte 7 = byte := if_neg (by omega)
  have value : unsigned (filled length reply byte) 6 2 =
      (filled length reply byte 6).toNat + 256 * byte.toNat := by
    simp [unsigned, bytesAt, range_succ, last]
  have low := (filled length reply byte 6).toNat_lt
  refine ⟨(filled length reply byte 6).toNat, by omega, ?_⟩
  rw [signed, value, if_pos (by omega)]

theorem outcome_of_kind {handler : Handler} (unchecked : handler.checks = [.kind])
    (isKind : unsigned reply 0 4 = handler.replyNum) (four : 4 ≤ handler.received length) :
    handler.outcome length reply = handler.values length reply := by
  have checked : checkGenericErrors (handler.received length) reply = 0 := by
    have notGeneric : handler.replyNum ≠ genericResultNum ∧
        handler.replyNum ≠ receiveRightDestroyedNum := by
      cases handler <;> exact ⟨by simp [Handler.replyNum, genericResultNum],
        by simp [Handler.replyNum, receiveRightDestroyedNum]⟩
    unfold checkGenericErrors
    rw [isKind, if_neg (by omega), if_neg (by simp [notGeneric]), if_neg (by simp [notGeneric])]
  rw [Handler.outcome, if_neg (not_not.mpr checked), unchecked]
  simp [Handler.passes, isKind]

theorem values_filled {handler : Handler} (trusts : handler.Trusts length reply)
    (unchecked : handler.checks = [.kind]) (isKind : unsigned reply 0 4 = handler.replyNum)
    (four : 4 ≤ length) (fourReceived : 4 ≤ handler.received length) :
    handler.values length (filled length reply 1) =
      handler.values length (filled length reply 2) := by
  have outcome (byte : UInt8) : handler.outcome length (filled length reply byte) =
      handler.values length (filled length reply byte) := by
    refine outcome_of_kind unchecked ?_ fourReceived
    rw [unsigned_congr (filled_agrees byte) (show 0 + 4 ≤ length by omega), isKind]
  rw [← outcome, ← outcome, trusts.received _ (filled_agrees 1),
    trusts.received _ (filled_agrees 2)]

theorem write_trusted {length : Nat} (trusts : Handler.write.Trusts length reply)
    (isKind : unsigned reply 0 4 = 0x51) (four : 4 ≤ length) : 16 ≤ length := by
  by_contra short
  have fourReceived : 4 ≤ Handler.write.received length := by
    simp only [Handler.received, Handler.replySize]
    omega
  have same : bytesAt (filled length reply 1) 8 8 = bytesAt (filled length reply 2) 8 8 :=
    congrArg Prod.snd (values_filled trusts rfl isKind four fourReceived)
  have last := map_inj_left.mp same 7 (by decide)
  simp only [filled, if_neg (show ¬8 + 7 < length by omega)] at last
  cases last

theorem read_trusted {count : Nat} (trusts : (Handler.read count).Trusts length reply)
    (isKind : unsigned reply 0 4 = 0x50) (four : 4 ≤ length) : 8 ≤ length := by
  by_contra short
  have same := congrArg Prod.fst (values_filled trusts rfl isKind four four)
  have isShort : length < 8 := by omega
  obtain ⟨first, _, isFirst⟩ := signed_filled reply isShort (show (1 : UInt8).toNat < 128 by decide)
  obtain ⟨second, _, isSecond⟩ := signed_filled reply isShort
    (show (2 : UInt8).toNat < 128 by decide)
  rw [show (1 : UInt8).toNat = 1 from rfl] at isFirst
  rw [show (2 : UInt8).toNat = 2 from rfl] at isSecond
  rw [Handler.values, Handler.values, if_pos (by omega), if_pos (by omega)] at same
  omega

theorem read_stores_iff {count : Nat} (isSize : length < 2 ^ 64) (eight : 8 ≤ length) :
    ((Handler.read count).values length reply).2.length ≤ count ↔
      (signed reply 6 2 = 0 → length - 8 ≤ count) := by
  have size : (length + (2 ^ 64 - 8)) % 2 ^ 64 = length - 8 := by omega
  by_cases zero : signed reply 6 2 = 0
  · have stored : ((Handler.read count).values length reply).2.length = length - 8 := by
      rw [Handler.values, if_neg (not_not.mpr zero), size, bytesAt, length_map, length_range]
    rw [stored]
    exact ⟨fun fits _ => fits, fun fits => fits zero⟩
  · simp [Handler.values, zero]

/-- The replies that the system calls trust are those whose length `write` and `read` need not
check. -/
theorem replies_trusted_iff (handler : Handler) (isSize : length < 2 ^ 64) :
    handler.Trusts length reply ↔ handler.Sound length reply := by
  constructor
  · intro trusts
    cases handler with
    | write => exact write_trusted trusts
    | read count =>
      intro isKind four
      have eight := read_trusted trusts isKind four
      have bounded := trusts.bounded count rfl
      have outcome : (Handler.read count).outcome length reply =
        (Handler.read count).values length reply := outcome_of_kind rfl isKind four
      rw [outcome] at bounded
      exact ⟨eight, (read_stores_iff isSize eight).mp bounded⟩
    | seek | openFile | stat | ttyname => exact trivial
  intro sound
  have full (passes : handler.checks.all (handler.passes length reply))
      (checked : ¬checkGenericErrors (handler.received length) reply ≠ 0) :
      handler.replySize ≤ length :=
    handler.full_of_passes sound
      ((four_le_of_checked (not_not.mp checked)).trans handler.received_le) passes
  refine ⟨fun other => handler.outcome_congr isSize sound, fun short => ?_, ?_⟩
  · unfold Handler.outcome
    split_ifs with checked passes
    · exact checked
    · exact absurd short (Nat.not_lt_of_le (full passes checked))
    · decide
  rintro count rfl
  unfold Handler.outcome
  split_ifs with checked passes
  · exact Nat.zero_le count
  · have eight : 8 ≤ length := full passes checked
    have isKind : unsigned reply 0 4 = 0x50 :=
      of_decide_eq_true (all_eq_true.mp passes .kind (by simp [Handler.checks]))
    exact (read_stores_iff isSize eight).mpr (sound isKind (by omega)).2
  · exact Nat.zero_le count

/-- The reply to a `seek` has the right type and is too short. -/
theorem replies_trusted_short : Handler.seek.Trusts 5 fun i => if i = 0 then 0x52 else 0 :=
  (replies_trusted_iff .seek (by decide)).mpr trivial

/-- A reply of 13 bytes to a `read` of four, which stores five bytes; and a reply of four bytes to
a `write`. -/
theorem replies_not_trusted :
    (Handler.read 4).outcome 13 (fun i => if i = 0 then 0x50 else 0) = (0, [0, 0, 0, 0, 0]) ∧
      ¬(Handler.read 4).Trusts 13 (fun i => if i = 0 then 0x50 else 0) ∧
      ¬Handler.write.Trusts 4 (fun i => if i = 0 then 0x51 else 0) := by
  refine ⟨by decide +kernel, fun trusts => ?_, fun trusts => ?_⟩
  · exact absurd (trusts.bounded 4 rfl) (by decide +kernel)
  · exact absurd (write_trusted trusts (by decide) (by decide)) (by decide)

end Replies

end Mlibc.Pmos
