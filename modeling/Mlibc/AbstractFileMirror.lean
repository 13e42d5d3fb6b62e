import Mlibc.AbstractFileRules

/-!
# The buffer as a mirror of a file

The device is a file that is read, written and moved without errors, but perhaps not as far as
asked.
-/

namespace Mlibc.AbstractFile

open ByteFile

variable {δ : Type}

/-- The device is a file; reads and writes do not fail, but may be short. -/
structure IsByteFile (ops : FileOps δ) (view : δ → ByteFile UInt8) : Prop where
  read : ∀ device maxSize, 0 < maxSize → Ends (ops.ioRead maxSize) device
    (fun bytes after => ∃ count, 0 < count ∧ count ≤ maxSize ∧
      bytes = (view device).peek count ∧ view after = (view device).advance bytes.length) Never
  write : ∀ device bytes, bytes ≠ [] → Ends (ops.ioWrite bytes) device
    (fun ioSize after => 0 < ioSize ∧ ioSize ≤ bytes.length ∧
      view after = (view device).write (bytes.take ioSize)) Never
  seek : ∀ device offset whence, Ends (ops.ioSeek offset whence) device
    (fun position after => (view device).seek offset whence = some (view after) ∧
      position = (view after).position)
    (fun code after => (view device).seek offset whence = none ∧ code = .einval ∧
      view after = view device)
  type : ∀ device, Ends ops.determineType device
    (fun type after => type = .fileLike ∧ view after = view device) Never
  bufmode : ∀ device, Ends ops.determineBufmode device
    (fun bufmode after => (bufmode = .lineBuffer ∨ bufmode = .fullBuffer) ∧
      view after = view device) Never
  postFlush : ∀ device, Ends ops.postFlush device (fun _ after => view after = view device) Never

/-- A relative move to a place of the file does not fail. -/
theorem IsByteFile.seek_to {ops : FileOps δ} {view : δ → ByteFile UInt8}
    (isFile : IsByteFile ops view) {device : δ} {offset : Int} {place : Nat}
    (target : ((view device).position : Int) + offset = place) :
    Ends (ops.ioSeek offset .seekCur) device
      (fun position after => view after = { view device with position := place } ∧
        position = place) Never := by
  refine (isFile.seek device offset .seekCur).mono ?_ ?_
  · rintro position after ⟨seeks, isPos⟩
    rw [seek_eq_some target] at seeks
    have viewed := (Option.some.inj seeks).symm
    exact ⟨viewed, isPos.trans (by rw [viewed])⟩
  · rintro code after ⟨fails, _⟩
    rw [seek_eq_some target] at fails
    cases fails

/-- The file with the indicator for its end. -/
structure DirectFile extends ByteFile UInt8 where
  eof : Bool

/-- The buffer holds the part of the file from `base` on, with the changes that are dirty. -/
structure Mirrors (view : δ → ByteFile UInt8) (base : Nat) (direct : DirectFile)
    (fp : Stream δ) : Prop where
  devicePosition : (view fp.device).position = base + fp.file.ioOffset
  position : direct.position = base + fp.file.offset
  offset_le : fp.file.offset ≤ fp.file.validLimit
  limit_le : fp.file.validLimit ≤ fp.file.memory.length
  sized : ∀ buf ∈ fp.file.buffer, buf.length = fp.file.bufferSize
  roomy : 0 < fp.file.bufferSize
  contents : fp.file.dirtyBegin = fp.file.dirtyEnd ∧ direct.contents = (view fp.device).contents ∨
    (fp.file.dirtyBegin < fp.file.dirtyEnd ∧ fp.file.dirtyEnd ≤ fp.file.offset ∧
      direct.contents = ByteFile.written (view fp.device).contents (base + fp.file.dirtyBegin)
        (segment fp.file.memory fp.file.dirtyBegin fp.file.dirtyEnd))
  valid : ∀ index < fp.file.validLimit, direct.contents[base + index]? = fp.file.memory[index]?
  type : fp.file.type ≠ .pipeLike
  bufmode : fp.file.bufmode ≠ .noBuffer
  unget : fp.file.ungetBytes = []
  eof : fp.file.statusBits.getLsbD 0 = direct.eof

def settled (file : AbstractFile) : AbstractFile :=
  { file with
    type := .fileLike
    ioOffset := if file.dirtyBegin = file.dirtyEnd then file.ioOffset else file.dirtyEnd
    dirtyBegin := file.dirtyEnd }

theorem settled_of_clean {file : AbstractFile} (clean : file.dirtyBegin = file.dirtyEnd) :
    file.settled = { file with type := .fileLike } := by
  unfold settled
  rw [if_pos clean]
  exact congrArg (fun dirtyBegin => { file with type := .fileLike, dirtyBegin }) clean.symm

section Functions

variable {ops : FileOps δ} {view : δ → ByteFile UInt8} {base : Nat} {direct : DirectFile}
  {fp : Stream δ}

theorem memory_length_le {file : AbstractFile}
    (sized : ∀ buf ∈ file.buffer, buf.length = file.bufferSize) :
    file.memory.length ≤ file.bufferSize := by
  cases isBuffer : file.buffer with
  | none =>
    rw [memory, isBuffer]
    exact Nat.zero_le _
  | some buf =>
    rw [memory, isBuffer]
    exact (sized buf isBuffer).le

theorem Mirrors.of_device (mirrors : Mirrors view base direct fp) {device : δ}
    (same : view device = view fp.device) :
    Mirrors view base direct { fp with device } :=
  { mirrors with
    devicePosition := by rw [same]; exact mirrors.devicePosition
    contents := by rw [same]; exact mirrors.contents }

theorem Mirrors.contents_eq (mirrors : Mirrors view base direct fp)
    (clean : fp.file.dirtyBegin = fp.file.dirtyEnd) :
    direct.contents = (view fp.device).contents := by
  rcases mirrors.contents with ⟨_, same⟩ | ⟨isDirty, _⟩
  · exact same
  · omega

variable (isFile : IsByteFile ops view) (mirrors : Mirrors view base direct fp)
include isFile mirrors

theorem initType_mirrors : Ends (initType ops) fp (fun _ after => Mirrors view base direct after ∧
        after.file = { fp.file with type := .fileLike }) Never := by
  apply ends_initType
  · intro known
    have isFileLike : fp.file.type = .fileLike := by
      cases type : fp.file.type with
      | unknown => exact absurd type known
      | fileLike => rfl
      | pipeLike => exact absurd type mirrors.type
    refine ⟨mirrors, ?_⟩
    rw [← isFileLike]
  · intro _
    refine (isFile.type fp.device).of_never.imp ?_
    rintro type device ⟨rfl, same⟩
    exact ⟨by simp, { mirrors.of_device same with type := by simp }, rfl⟩

theorem initBufmode_mirrors : Ends (initBufmode ops) fp
      (fun _ after => Mirrors view base direct after ∧
        ∃ bufmode, after.file = { fp.file with bufmode }) Never := by
  apply ends_initBufmode
  · intro _
    exact ⟨mirrors, fp.file.bufmode, rfl⟩
  intro _
  refine (isFile.bufmode fp.device).of_never.imp ?_
  rintro bufmode device ⟨known, same⟩
  have bufmodes : bufmode ≠ .unknown ∧ bufmode ≠ .noBuffer := by
    rcases known with rfl | rfl <;> simp
  exact ⟨bufmodes.1, { mirrors.of_device same with bufmode := bufmodes.2 }, bufmode, rfl⟩

theorem seekToDirty_mirrors (isFileLike : fp.file.type = .fileLike) : Ends (seekToDirty ops) fp
      (fun _ after => Mirrors view base direct after ∧
        after.file = { fp.file with ioOffset := fp.file.dirtyBegin }) Never := by
  simp only [seekToDirty, ends_bind, ends_getFile]
  rw [if_pos isFileLike]
  refine ends_ite.mpr ⟨fun _ => ?_, fun same => ⟨mirrors, ?_⟩⟩
  · simp only [ends_bind, ends_io, ends_modifyFile]
    have target : ((view fp.device).position : Int) +
        ((fp.file.dirtyBegin : Int) - fp.file.ioOffset) = (base + fp.file.dirtyBegin : Nat) := by
      rw [mirrors.devicePosition]
      omega
    refine (isFile.seek_to target).of_never.imp ?_
    rintro position device ⟨viewed, _⟩
    refine ⟨{ mirrors with devicePosition := ?_, contents := ?_ }, trivial⟩
    · rw [viewed]
    · rw [viewed]
      exact mirrors.contents
  · exact congrArg (fun ioOffset => { fp.file with ioOffset }) (not_not.mp same)

theorem ioWrite_mirrors (atDirty : fp.file.ioOffset = fp.file.dirtyBegin)
    (remains : fp.file.ioOffset < fp.file.dirtyEnd) :
    Ends (ops.ioWrite (segment fp.file.memory fp.file.ioOffset fp.file.dirtyEnd)) fp.device
      (fun ioSize device => 0 < ioSize ∧ fp.file.ioOffset + ioSize ≤ fp.file.dirtyEnd ∧
        Mirrors view base direct ⟨{ fp.file with
          ioOffset := fp.file.ioOffset + ioSize
          dirtyBegin := fp.file.dirtyBegin + ioSize }, device⟩) Never := by
  rcases mirrors.contents with ⟨clean, _⟩ | ⟨_, inside, contents⟩
  · omega
  have valid := mirrors.limit_le
  have before := mirrors.offset_le
  have length : (segment fp.file.memory fp.file.ioOffset fp.file.dirtyEnd).length =
      fp.file.dirtyEnd - fp.file.ioOffset := length_segment (by omega)
  have ne : segment fp.file.memory fp.file.ioOffset fp.file.dirtyEnd ≠ [] := by
    rw [← List.length_pos_iff]
    omega
  refine (isFile.write fp.device _ ne).of_never.imp ?_
  rintro ioSize device ⟨pos, short, viewed⟩
  rw [length] at short
  rw [take_segment _ short, ByteFile.write, mirrors.devicePosition, atDirty] at viewed
  have firstLength : (segment fp.file.memory fp.file.dirtyBegin
      (fp.file.dirtyBegin + ioSize)).length = ioSize := by
    rw [length_segment (by omega)]
    omega
  refine ⟨pos, by omega, { mirrors with devicePosition := ?_, contents := ?_ }⟩
  · rw [viewed, firstLength, atDirty, add_assoc]
  show (fp.file.dirtyBegin + ioSize = fp.file.dirtyEnd ∧ direct.contents = (view device).contents) ∨
    (fp.file.dirtyBegin + ioSize < fp.file.dirtyEnd ∧ fp.file.dirtyEnd ≤ fp.file.offset ∧
      direct.contents = written (view device).contents (base + (fp.file.dirtyBegin + ioSize))
        (segment fp.file.memory (fp.file.dirtyBegin + ioSize) fp.file.dirtyEnd))
  rw [viewed]
  by_cases done : fp.file.dirtyBegin + ioSize = fp.file.dirtyEnd
  · rw [done]
    exact .inl ⟨rfl, contents⟩
  refine .inr ⟨by omega, inside, contents.trans ?_⟩
  have split := segment_append fp.file.memory (Nat.le_add_right fp.file.dirtyBegin ioSize)
    (show fp.file.dirtyBegin + ioSize ≤ fp.file.dirtyEnd by omega)
  rw [← split, written_append, firstLength, add_assoc]

theorem writeBack_mirrors : Ends (writeBack ops) fp
      (fun _ after => Mirrors view base direct after ∧ after.file = fp.file.settled) Never := by
  simp only [writeBack, ends_bind]
  refine (initType_mirrors isFile mirrors).imp ?_
  rintro _ ⟨_, typedDev⟩ ⟨typedMirrors, rfl⟩
  refine ends_ite.mpr ⟨fun clean => ⟨typedMirrors, ?_⟩, fun isDirty => ?_⟩
  · exact (settled_of_clean clean).symm
  rw [ends_bind]
  refine (seekToDirty_mirrors isFile typedMirrors rfl).imp ?_
  rintro _ ⟨_, movedDev⟩ ⟨movedMirrors, rfl⟩
  have isDirty' : fp.file.dirtyBegin ≠ fp.file.dirtyEnd := isDirty
  have ordered : fp.file.dirtyBegin < fp.file.dirtyEnd := by
    rcases mirrors.contents with ⟨clean, _⟩ | ⟨ordered, _⟩
    · exact absurd clean isDirty'
    · exact ordered
  refine (ends_writeBackLoop ops
    (fun after => Mirrors view base direct after ∧ ∃ place ≤ fp.file.dirtyEnd,
      after.file = { fp.file with
        type := .fileLike, ioOffset := place, dirtyBegin := place })
    ?_ ?_ (Nat.lt_succ_self _) ⟨movedMirrors, fp.file.dirtyBegin, ordered.le,
    rfl⟩).mono ?_
    (fun _ _ impossible => impossible)
  · rintro ⟨_, device⟩ ⟨current, place, _, rfl⟩ remains
    have before : fp.file.offset ≤ fp.file.validLimit := current.offset_le
    have inside := current.limit_le
    have sized := memory_length_le current.sized
    rcases current.contents with ⟨clean, _⟩ | ⟨_, within, _⟩
    · have clean' : place = fp.file.dirtyEnd := clean
      have remains' : place < fp.file.dirtyEnd := remains
      omega
    · exact ⟨within.trans (before.trans inside), sized⟩
  · rintro ⟨_, device⟩ ⟨current, place, _, rfl⟩ remains
    refine (ioWrite_mirrors isFile current rfl remains).mono ?_
      (fun _ _ impossible => impossible.elim)
    rintro ioSize device ⟨pos, within, next⟩
    exact ⟨pos, next, place + ioSize, within, rfl⟩
  · rintro _ ⟨_, device⟩ ⟨⟨current, place, within, rfl⟩, done⟩
    have done' : fp.file.dirtyEnd ≤ place := done
    have atEnd : place = fp.file.dirtyEnd := by omega
    subst atEnd
    refine ⟨current, ?_⟩
    simp only [settled, if_neg isDirty']

theorem reset_mirrors (clean : fp.file.dirtyBegin = fp.file.dirtyEnd) : Ends (reset ops) fp
      (fun _ after =>
        Mirrors view (base + fp.file.ioOffset)
          { direct with position := base + fp.file.ioOffset } after ∧
        after.file = { fp.file with
          type := .fileLike, offset := 0, ioOffset := 0, validLimit := 0 }) Never := by
  simp only [reset, ends_bind, ends_getFile]
  refine (initType_mirrors isFile mirrors).imp ?_
  rintro _ ⟨_, device⟩ ⟨typedMirrors, rfl⟩
  refine (ends_ensure (fun isPipe => by cases isPipe)).mpr ((ends_ensure clean).mpr ⟨?_, rfl⟩)
  refine { typedMirrors with
    devicePosition := typedMirrors.devicePosition, position := rfl, offset_le := le_rfl,
    limit_le := Nat.zero_le _, contents := ?_, valid := ?_ }
  · exact .inl ⟨clean, typedMirrors.contents_eq clean⟩
  · intro index isBelow
    exact absurd isBelow (Nat.not_lt_zero index)

end Functions

end Mlibc.AbstractFile
