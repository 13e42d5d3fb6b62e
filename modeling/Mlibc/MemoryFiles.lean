import Mlibc.ByteFile
import Mlibc.Errno

/-!
# Streams in memory

The devices of `open_memstream`, a vector with a terminator, and of `fmemopen`, a buffer of a
fixed size.
-/

namespace Mlibc

open List

/-! ### `open_memstream` -/

/-- `memstream_mem_file`. -/
structure MemstreamFile where
  buf : List UInt8
  pos : Int
  deriving DecidableEq

inductive MemstreamCall where
  | write (bytes : List UInt8)
  | seek (offset : Int) (whence : Whence)
  | flush
  deriving DecidableEq

/-- What a call reports; a flush reports the bytes at `*_bufloc` and `*_sizeloc`. -/
inductive MemstreamReply where
  | wrote (count : Nat)
  | sought (position : Int)
  | failed (code : Errno)
  | flushed (buffer : List UInt8) (size : Int)
  deriving DecidableEq

namespace MemstreamFile

def new : MemstreamFile := ⟨[0], 0⟩

def resize (buf : List UInt8) (size : Nat) : List UInt8 :=
  buf.take size ++ replicate (size - buf.length) 0

def reserve (buf : List UInt8) (pos : Nat) : List UInt8 :=
  if buf.length ≤ pos then resize buf (pos + 1) else buf

/-- At a negative position the copy leaves the buffer. -/
def ioWrite (file : MemstreamFile) (bytes : List UInt8) : Option (MemstreamReply × MemstreamFile) :=
  if file.pos < 0 then none
  else
    let pos := file.pos.toNat
    let buf := reserve file.buf (pos + bytes.length)
    let bytesWrite := min (buf.length - pos) bytes.length
    some (.wrote bytes.length, ⟨overwrite buf pos (bytes.take bytesWrite), file.pos + bytes.length⟩)

def seekAhead (buf : List UInt8) (pos : Int) : MemstreamReply × MemstreamFile :=
  (.sought pos, ⟨if 0 ≤ pos then reserve buf pos.toNat else buf, pos⟩)

/-- The size of a vector is unsigned: none has a size below zero. -/
def ioSeek (file : MemstreamFile) (offset : Int) : Whence → Option (MemstreamReply × MemstreamFile)
  | .seekSet => some (seekAhead file.buf offset)
  | .seekCur => some (seekAhead file.buf (file.pos + offset))
  | .seekEnd =>
    let pos := if file.buf.length ≠ 0 then file.buf.length - 1 + offset else offset
    if pos + 1 < 0 then none
    else some (.sought pos, ⟨resize file.buf (pos + 1).toNat, pos⟩)
  | .other => some (.failed .einval, file)

def step (file : MemstreamFile) : MemstreamCall → Option (MemstreamReply × MemstreamFile)
  | .write bytes => file.ioWrite bytes
  | .seek offset whence => file.ioSeek offset whence
  | .flush => some (.flushed file.buf (file.buf.length - 1), file)

end MemstreamFile

/-- The growable array: a seek behind the end makes it longer, a seek to a negative position
fails. -/
def arrayStep (array : ByteFile UInt8) : MemstreamCall → MemstreamReply × ByteFile UInt8
  | .write bytes => (.wrote bytes.length, array.write bytes)
  | .seek offset whence =>
    match array.seek offset whence with
    | none => (.failed .einval, array)
    | some moved =>
      (.sought moved.position,
        ⟨array.contents ++ replicate (moved.position - array.contents.length) 0, moved.position⟩)
  | .flush => (.flushed (array.contents ++ [0]) array.contents.length, array)

namespace MemstreamFile

/-- The vector is the array with a terminator. -/
structure Represents (file : MemstreamFile) (array : ByteFile UInt8) : Prop where
  buf : file.buf = array.contents ++ [0]
  pos : file.pos = array.position

/-- The stream replies to the call as the array does, and represents it afterwards. -/
def Simulates (file : MemstreamFile) (array : ByteFile UInt8) (call : MemstreamCall) : Prop :=
  ∃ next, file.step call = some ((arrayStep array call).1, next) ∧
    next.Represents (arrayStep array call).2

def Follows : MemstreamFile → ByteFile UInt8 → List MemstreamCall → Prop
  | _, _, [] => True
  | file, array, call :: calls =>
    ∃ next, file.step call = some ((arrayStep array call).1, next) ∧
      next.Represents (arrayStep array call).2 ∧ next.Follows (arrayStep array call).2 calls

/-- No seek has a negative target, and none is relative to the end and goes back. -/
def SeeksAhead (array : ByteFile UInt8) : MemstreamCall → Prop
  | .seek offset .seekSet => 0 ≤ offset
  | .seek offset .seekCur => 0 ≤ array.position + offset
  | .seek offset .seekEnd => 0 ≤ offset
  | _ => True

def AllSeekAhead : ByteFile UInt8 → List MemstreamCall → Prop
  | _, [] => True
  | array, call :: calls =>
    SeeksAhead array call ∧ AllSeekAhead (arrayStep array call).2 calls

theorem resize_terminated (contents : List UInt8) {pos : Nat} (grows : contents.length ≤ pos) :
    resize (contents ++ [0]) (pos + 1) =
      contents ++ replicate (pos - contents.length) 0 ++ [0] := by
  rw [resize, take_of_length_le (by simpa using grows), length_append, length_singleton,
    Nat.add_sub_add_right, append_assoc, append_assoc, ← replicate_one, replicate_append_replicate,
    replicate_append_replicate, add_comm]

theorem reserve_terminated (contents : List UInt8) (pos : Nat) :
    reserve (contents ++ [0]) pos = contents ++ replicate (pos - contents.length) 0 ++ [0] := by
  rw [reserve, length_append, length_singleton]
  split_ifs with grows
  · exact resize_terminated contents (by omega)
  · rw [Nat.sub_eq_zero_of_le (by omega), replicate_zero, append_nil]

/-- The gap is filled up to the last byte that is written, which is then overwritten. -/
theorem overwrite_terminated (contents bytes : List UInt8) (pos : Nat) :
    overwrite (contents ++ replicate (pos + bytes.length - contents.length) 0 ++ [0]) pos bytes =
      ByteFile.written contents pos bytes ++ [0] := by
  have taken : (contents ++ replicate (pos + bytes.length - contents.length) (0 : UInt8)).take pos =
      (contents ++ replicate (pos - contents.length) 0).take pos := by
    simp only [take_append, take_replicate]
    congr 2
    omega
  have dropped : (contents ++ replicate (pos + bytes.length - contents.length) (0 : UInt8)).drop
        (pos + bytes.length) =
      (contents ++ replicate (pos - contents.length) 0).drop (pos + bytes.length) := by
    simp only [drop_append, drop_replicate]
    congr 2
    omega
  have inside : pos + bytes.length ≤
      (contents ++ replicate (pos + bytes.length - contents.length) (0 : UInt8)).length := by
    simp only [length_append, length_replicate]
    omega
  rw [ByteFile.written, overwrite, overwrite, take_append_of_le_length (by omega),
    drop_append_of_le_length inside, taken, dropped, append_assoc, append_assoc, append_assoc]

section Steps

variable {file : MemstreamFile} {array : ByteFile UInt8} (same : file.Represents array)
include same

theorem Represents.write (bytes : List UInt8) : file.Simulates array (.write bytes) := by
  have position : file.pos.toNat = array.position := by
    rw [same.pos, Int.toNat_natCast]
  refine ⟨_, if_neg (by have := same.pos; omega), ?_, ?_⟩
  · simp only [position, same.buf, reserve_terminated]
    rw [Nat.min_eq_right, take_length, overwrite_terminated]
    · rfl
    · simp only [length_append, length_replicate]
      omega
  · simp only [arrayStep, ByteFile.write, same.pos, Nat.cast_add]

theorem Represents.seekAhead (position : Nat) :
    (seekAhead file.buf position).2.Represents ⟨array.contents ++
      replicate (position - array.contents.length) 0, position⟩ := by
  refine ⟨?_, rfl⟩
  rw [MemstreamFile.seekAhead, if_pos (Int.natCast_nonneg _), Int.toNat_natCast, same.buf,
    reserve_terminated]

theorem Represents.seekEnd_iff (offset : Int) :
    file.Simulates array (.seek offset .seekEnd) ↔ 0 ≤ offset := by
  have bufSize : file.buf.length = array.contents.length + 1 := by
    rw [same.buf, length_append, length_singleton]
  have target : (file.buf.length : Int) - 1 + offset = array.contents.length + offset := by omega
  simp only [Simulates, step, ioSeek, if_pos (show file.buf.length ≠ 0 by omega), target,
    arrayStep, ByteFile.seek]
  rcases moved : (array.contents.length : Int) + offset with position | behind
  · rw [Int.ofNat_eq_natCast] at moved
    constructor
    · rintro ⟨next, steps, rep⟩
      cases steps
      have sizes : (resize file.buf (position + 1)).length = _ := congrArg length rep.buf
      simp only [resize, length_append, length_take, length_replicate, length_singleton] at sizes
      omega
    · intro ahead
      refine ⟨_, rfl, ?_, rfl⟩
      exact (congrArg (resize · _) same.buf).trans (resize_terminated _ (by omega))
  · refine iff_of_false ?_ (by omega)
    rintro ⟨next, steps, rep⟩
    split_ifs at steps
    cases steps

theorem Represents.step_iff (call : MemstreamCall) :
    file.Simulates array call ↔ SeeksAhead array call := by
  cases call with
  | write bytes => exact iff_of_true (same.write bytes) trivial
  | flush =>
    refine iff_of_true ⟨file, ?_, same⟩ trivial
    simp [step, arrayStep, same.buf]
  | seek offset whence =>
    cases whence with
    | seekSet =>
      rcases offset with target | back
      · exact iff_of_true ⟨_, rfl, same.seekAhead target⟩ (Int.natCast_nonneg target)
      · exact iff_of_false (by rintro ⟨_, ⟨⟩, _⟩) (by simp [SeeksAhead])
    | seekCur =>
      simp only [Simulates, step, ioSeek, arrayStep, ByteFile.seek, SeeksAhead, ← same.pos]
      rcases file.pos + offset with target | back
      · exact iff_of_true ⟨_, rfl, same.seekAhead target⟩ (Int.natCast_nonneg target)
      · exact iff_of_false (by rintro ⟨_, ⟨⟩, _⟩) (by simp)
    | seekEnd => exact same.seekEnd_iff offset
    | other => exact iff_of_true ⟨file, rfl, same⟩ trivial

theorem Represents.follows_iff (calls : List MemstreamCall) :
    file.Follows array calls ↔ AllSeekAhead array calls := by
  induction calls generalizing file array with
  | nil => exact .rfl
  | cons call calls ih =>
    rw [AllSeekAhead, ← same.step_iff call]
    constructor
    · rintro ⟨next, steps, rep, follows⟩
      exact ⟨⟨next, steps, rep⟩, (ih rep).mp follows⟩
    · rintro ⟨⟨next, steps, rep⟩, ahead⟩
      exact ⟨next, steps, rep, (ih rep).mpr ahead⟩

end Steps

/-- The stream is the growable array as long as no seek goes in front of it or back from its end. -/
theorem memstream_follows_iff (calls : List MemstreamCall) :
    new.Follows ⟨[], 0⟩ calls ↔ AllSeekAhead ⟨[], 0⟩ calls :=
  Represents.follows_iff ⟨rfl, rfl⟩ calls

/-- The seek drops the last two bytes of the array. -/
theorem memstream_seek_drops_bytes :
    ¬ new.Follows ⟨[], 0⟩ [.write [97, 98, 99], .seek (-2) .seekEnd] := by
  rintro ⟨next, steps, -, after, moves, rep, -⟩
  cases steps
  cases moves
  exact absurd rep.buf (by decide)

end MemstreamFile

/-! ### `fmemopen` -/

/-- The flags of the mode. -/
structure OpenFlags where
  wronly : Bool
  rdwr : Bool
  append : Bool
  creat : Bool
  trunc : Bool

/-- `fmemopen_mem_file`. -/
structure FmemopenFile where
  flags : OpenFlags
  buffer : List UInt8
  pos : Nat
  maxSize : Nat

inductive FmemopenCall where
  | read (maxSize : Nat)
  | write (bytes : List UInt8)
  | seek (offset : Int) (whence : Whence)

namespace FmemopenFile

/-- A buffer that the caller does not give is allocated. -/
def new (inBuffer : List UInt8) (needsDeallocation : Bool) (flags : OpenFlags) : FmemopenFile :=
  if flags.append then
    let maxSize := if needsDeallocation then 0 else (inBuffer.takeWhile (· ≠ 0)).length
    ⟨flags, inBuffer, maxSize, maxSize⟩
  else if (flags.wronly || flags.rdwr) && flags.creat && flags.trunc then ⟨flags, inBuffer, 0, 0⟩
  else ⟨flags, inBuffer, 0, inBuffer.length⟩

def ioRead (file : FmemopenFile) (maxSize : Nat) : List UInt8 × FmemopenFile :=
  if file.maxSize ≤ file.pos ∨ maxSize = 0 then ([], file)
  else
    let bytesRead := min (file.maxSize - file.pos) maxSize
    (segment file.buffer file.pos (file.pos + bytesRead), { file with pos := file.pos + bytesRead })

/-- The place of the null byte after a write that ends at a position. -/
def null (file : FmemopenFile) (pos : Nat) : Nat :=
  if file.buffer.length ≤ pos ∨ file.flags.rdwr then file.buffer.length - 1 else pos

def ioWrite (file : FmemopenFile) (bytes : List UInt8) : Nat × FmemopenFile :=
  let bytesWrite := min (file.buffer.length - file.pos) bytes.length
  let buffer := overwrite file.buffer file.pos (bytes.take bytesWrite)
  let pos := file.pos + bytesWrite
  let maxSize := if file.maxSize < pos then pos else file.maxSize
  (bytesWrite, ⟨file.flags, buffer.set (file.null pos) 0, pos, maxSize⟩)

def seekTo (file : FmemopenFile) (target : Int) : Except Errno Int × FmemopenFile :=
  if target < 0 ∨ file.buffer.length < target then (.error .einval, file)
  else (.ok target, { file with pos := target.toNat })

def ioSeek (file : FmemopenFile) (offset : Int) : Whence → Except Errno Int × FmemopenFile
  | .seekSet => file.seekTo offset
  | .seekCur => file.seekTo (file.pos + offset)
  | .seekEnd => file.seekTo (file.maxSize + offset)
  | .other => (.error .einval, file)

def after (file : FmemopenFile) : FmemopenCall → FmemopenFile
  | .read maxSize => (file.ioRead maxSize).2
  | .write bytes => (file.ioWrite bytes).2
  | .seek offset whence => (file.ioSeek offset whence).2

/-- The position and the contents stay in the buffer. -/
structure Within (file : FmemopenFile) (flags : OpenFlags) (size : Nat) : Prop where
  flags : file.flags = flags
  buffer : file.buffer.length = size
  pos : file.pos ≤ size
  maxSize : file.maxSize ≤ size

/-- A write replaces the bytes that it accepts, and no other byte of the contents. -/
structure UpdatesOnly (file : FmemopenFile) (bytes : List UInt8) : Prop where
  written : ∀ index < (file.ioWrite bytes).1,
    (file.ioWrite bytes).2.buffer[file.pos + index]? = bytes[index]?
  kept : ∀ index < (file.ioWrite bytes).2.maxSize,
    index < file.pos ∨ file.pos + (file.ioWrite bytes).1 ≤ index →
    (file.ioWrite bytes).2.buffer[index]? = file.buffer[index]?
  terminator : (file.ioWrite bytes).2.maxSize ≤ file.null (file.ioWrite bytes).2.pos

theorem within_new (inBuffer : List UInt8) (needsDeallocation : Bool) (flags : OpenFlags) :
    (new inBuffer needsDeallocation flags).Within flags inBuffer.length := by
  have prefixSize := ( takeWhile_prefix (· ≠ (0 : UInt8)) (l := inBuffer)).length_le
  unfold new
  split_ifs
  · exact ⟨rfl, rfl, Nat.zero_le _, Nat.zero_le _⟩
  · exact ⟨rfl, rfl, prefixSize, prefixSize⟩
  · exact ⟨rfl, rfl, Nat.zero_le _, Nat.zero_le _⟩
  · exact ⟨rfl, rfl, Nat.zero_le _, le_rfl⟩

section Within

variable {file : FmemopenFile} {flags : OpenFlags} {size : Nat} (within : file.Within flags size)
include within

theorem Within.seekTo (target : Int) : (file.seekTo target).2.Within flags size := by
  unfold FmemopenFile.seekTo
  split_ifs with outside
  · exact within
  · have inside := within.buffer
    exact ⟨within.flags, within.buffer, by simp only; omega, within.maxSize⟩

theorem Within.after (call : FmemopenCall) : (file.after call).Within flags size := by
  have ⟨sameFlags, bufferSize, posInside, contentsInside⟩ := within
  cases call with
  | read count =>
    simp only [FmemopenFile.after, ioRead]
    split_ifs
    · exact within
    · exact ⟨sameFlags, bufferSize, by simp only; omega, contentsInside⟩
  | write bytes =>
    refine ⟨sameFlags, ?_, ?_, ?_⟩
    · simp only [FmemopenFile.after, ioWrite, length_set]
      rw [length_overwrite (by omega), length_take]
      omega
    · simp only [FmemopenFile.after, ioWrite]
      omega
    · simp only [FmemopenFile.after, ioWrite]
      split_ifs <;> omega
  | seek offset whence =>
    cases whence with
    | seekSet | seekCur | seekEnd => exact within.seekTo _
    | other => exact within

theorem Within.run (calls : List FmemopenCall) :
    (calls.foldl FmemopenFile.after file).Within flags size := by
  induction calls generalizing file with
  | nil => exact within
  | cons call calls ih => exact ih (within.after call)

theorem Within.updatesOnly_iff (ne : 0 < size) (updating : flags.rdwr = true) (bytes : List UInt8) :
    file.UpdatesOnly bytes ↔ file.maxSize < size ∧ file.pos + bytes.length < size := by
  have ⟨sameFlags, bufferSize, posInside, contentsInside⟩ := within
  have place : ∀ pos, file.null pos = size - 1 := by
    intro pos
    rw [null, if_pos (.inr (by rw [sameFlags, updating])), bufferSize]
  constructor
  · rintro ⟨-, -, terminator⟩
    rw [place] at terminator
    simp only [ioWrite] at terminator
    split_ifs at terminator <;> omega
  · rintro ⟨contentsFit, fits⟩
    have acc : min (size - file.pos) bytes.length = bytes.length := by omega
    have stored : ∀ index, index + 1 < size → (file.ioWrite bytes).2.buffer[index]? =
        (overwrite file.buffer file.pos bytes)[index]? := by
      intro index before
      simp only [ioWrite, bufferSize, acc, take_length, place]
      exact getElem?_set_ne (by omega)
    have maxSize : (file.ioWrite bytes).2.maxSize < size := by
      simp only [ioWrite]
      split_ifs <;> omega
    have count : (file.ioWrite bytes).1 = bytes.length := by
      simp only [ioWrite, bufferSize, acc]
    refine ⟨?_, ?_, by rw [place]; omega⟩
    · intro index inside
      rw [stored _ (by omega), getElem?_overwrite (by omega), if_neg (by omega),
        if_pos (by omega), Nat.add_sub_cancel_left]
    · intro index inside outside
      rw [stored _ (by omega), getElem?_overwrite (by omega)]
      rcases outside with before | behind
      · rw [if_pos before]
      · rw [if_neg (by omega), if_neg (by omega)]

end Within

theorem ioRead_eq (file : FmemopenFile) (count : Nat) :
    (file.ioRead count).1 = ((file.buffer.take file.maxSize).drop file.pos).take count := by
  rw [drop_take, take_take, ioRead]
  split_ifs with nothing
  · rcases nothing with behind | none
    · rw [Nat.sub_eq_zero_of_le behind, Nat.min_zero, take_zero]
    · rw [none, Nat.zero_min, take_zero]
  · simp only [segment, Nat.add_sub_cancel_left, Nat.min_comm]

/-- A write stores just its bytes exactly if the last byte of the buffer stays free. -/
theorem fmemopen_updates_only_iff {inBuffer : List UInt8} (ne : 0 < inBuffer.length)
    (needsDeallocation : Bool) {flags : OpenFlags} (updating : flags.rdwr = true)
    (calls : List FmemopenCall) :
    let file := calls.foldl after (new inBuffer needsDeallocation flags)
    (∀ bytes, file.UpdatesOnly bytes ↔
      file.maxSize < inBuffer.length ∧ file.pos + bytes.length < inBuffer.length) ∧
    ∀ count, (file.ioRead count).1 =
      ((file.buffer.take file.maxSize).drop file.pos).take count := by
  have within := (within_new inBuffer needsDeallocation flags).run calls
  exact ⟨within.updatesOnly_iff ne updating, ioRead_eq _⟩

theorem fmemopen_updates_only_example :
    (new [97, 98, 99] false ⟨false, true, false, true, true⟩).UpdatesOnly [120, 121] :=
  ((fmemopen_updates_only_iff (by decide) false rfl []).1 _).mpr (by decide)

/-- A write of one byte to `abc` in the mode `r+` destroys the last one. -/
theorem fmemopen_null_destroys :
    ((new [97, 98, 99] false ⟨false, true, false, false, false⟩).ioWrite [120]).2.buffer =
      [120, 98, 0] ∧
    ¬ (new [97, 98, 99] false ⟨false, true, false, false, false⟩).UpdatesOnly [120] :=
  ⟨rfl, fun updates => absurd (updates.kept 2) (by decide)⟩

end FmemopenFile

end Mlibc
