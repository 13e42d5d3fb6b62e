import Mlibc.AbstractFileRead

/-! # Writing to a stream and its position -/

namespace Mlibc.AbstractFile

open List Option

variable {δ : Type} {ops : FileOps δ} {view : δ → ByteFile UInt8} {base : Nat}
  {direct : DirectFile} {fp : Stream δ}

section Store

variable {buf ungetBytes chunk : List UInt8} (mirrors : Mirrors view base direct fp)
  (alloc : fp.file.AllocatedAs buf ungetBytes)
include mirrors alloc

theorem Mirrors.buffer_valid : fp.file.validLimit ≤ buf.length ∧
      ∀ index < fp.file.validLimit, direct.contents[base + index]? = buf[index]? := by
  have inside := mirrors.limit_le
  rcases alloc with ⟨isBuffer, _⟩ | ⟨isNone, _⟩
  · have isMemory : fp.file.memory = buf := by rw [memory, isBuffer, getD_some]
    rw [← isMemory]
    exact ⟨inside, mirrors.valid⟩
  · have noMemory : fp.file.memory = [] := by rw [memory, isNone, getD_none]
    rw [noMemory, length_nil] at inside
    exact ⟨by omega, fun index isBelow => by omega⟩

theorem Mirrors.written_clean (isDirty : fp.file.dirtyBegin < fp.file.dirtyEnd)
    (within : fp.file.dirtyEnd ≤ fp.file.offset)
    (contents : direct.contents = ByteFile.written (view fp.device).contents
        (base + fp.file.dirtyBegin)
        (segment fp.file.memory fp.file.dirtyBegin fp.file.dirtyEnd)) :
    ByteFile.written (view fp.device).contents (base + fp.file.dirtyBegin)
        (segment buf fp.file.dirtyBegin fp.file.offset ++ chunk) =
      ByteFile.written direct.contents (base + fp.file.offset) chunk := by
  have before := mirrors.offset_le
  rcases mirrors.buffer_valid alloc with ⟨inside, valid⟩
  have isMemory : fp.file.memory = buf := by
    rcases alloc with ⟨isBuffer, _⟩ | ⟨isNone, _⟩
    · rw [memory, isBuffer, getD_some]
    · have limit := mirrors.limit_le
      rw [memory, isNone, getD_none, length_nil] at limit
      omega
  have same : ByteFile.written direct.contents (base + fp.file.dirtyEnd)
      (segment buf fp.file.dirtyEnd fp.file.offset) = direct.contents := by
    have length : (segment buf fp.file.dirtyEnd fp.file.offset).length =
        fp.file.offset - fp.file.dirtyEnd := length_segment (by omega)
    apply ByteFile.written_same
    · have last := valid (fp.file.offset - 1) (by omega)
      have lastByte := getElem?_eq_getElem (show fp.file.offset - 1 < buf.length by omega)
      rcases List.getElem?_eq_some_iff.mp (last.trans lastByte) with ⟨lastInside, _⟩
      omega
    · intro index isBelow
      rw [getElem?_segment, if_pos (by omega), add_assoc, valid _ (by omega)]
  rw [isMemory] at contents
  have dirtyLength : (segment buf fp.file.dirtyBegin fp.file.dirtyEnd).length =
      fp.file.dirtyEnd - fp.file.dirtyBegin := length_segment (by omega)
  have cleanLength : (segment buf fp.file.dirtyEnd fp.file.offset).length =
      fp.file.offset - fp.file.dirtyEnd := length_segment (by omega)
  have dirtyPlace : base + fp.file.dirtyBegin +
      (fp.file.dirtyEnd - fp.file.dirtyBegin) = base + fp.file.dirtyEnd := by omega
  have cleanPlace : base + fp.file.dirtyEnd +
      (fp.file.offset - fp.file.dirtyEnd) = base + fp.file.offset := by omega
  rw [← segment_append buf isDirty.le within, append_assoc, ByteFile.written_append,
    ← contents, ByteFile.written_append, dirtyLength, dirtyPlace, same, cleanLength, cleanPlace]

theorem Mirrors.store (fits : fp.file.offset + chunk.length ≤ fp.file.bufferSize)
    (ne : chunk ≠ []) :
    Mirrors view base (direct.afterWrite chunk)
      { fp with file := fp.file.store buf ungetBytes chunk } := by
  have size := alloc.length mirrors.sized
  have before := mirrors.offset_le
  have pos := length_pos_iff.mpr ne
  rcases mirrors.buffer_valid alloc with ⟨inside, valid⟩
  have room : fp.file.offset ≤ buf.length := by omega
  have length : (overwrite buf fp.file.offset chunk).length =
      max buf.length (fp.file.offset + chunk.length) := length_overwrite room
  refine { mirrors with
    position := ?_, offset_le := Nat.le_max_left _ _, limit_le := ?_, sized := ?_,
    contents := .inr ?_, valid := ?_, unget := ?_ }
  · show direct.position + chunk.length = base + (fp.file.offset + chunk.length)
    rw [mirrors.position, add_assoc]
  · show max (fp.file.offset + chunk.length) fp.file.validLimit ≤
      (overwrite buf fp.file.offset chunk).length
    omega
  · rintro other ⟨rfl⟩
    show (overwrite buf fp.file.offset chunk).length = fp.file.bufferSize
    omega
  · simp only [AbstractFile.store, markDirty, DirectFile.afterWrite, ByteFile.write, memory,
      getD_some, mirrors.position]
    rcases mirrors.contents with ⟨clean, contents⟩ | ⟨isDirty, within, contents⟩
    · rw [if_neg (not_not.mpr clean), if_neg (not_not.mpr clean)]
      refine ⟨by omega, le_rfl, ?_⟩
      rw [segment_overwrite room le_rfl, segment_self, nil_append, contents]
    rw [if_pos (by omega), if_pos (by omega), Nat.min_eq_left (by omega),
      Nat.max_eq_right (by omega)]
    refine ⟨by omega, le_rfl, ?_⟩
    rw [segment_overwrite room (by omega)]
    exact (mirrors.written_clean alloc isDirty within contents).symm
  · intro index isBelow
    have isBelow' : index < max (fp.file.offset + chunk.length) fp.file.validLimit :=
      isBelow
    show (ByteFile.written direct.contents direct.position chunk)[base + index]? =
      (overwrite buf fp.file.offset chunk)[index]?
    rw [mirrors.position, ByteFile.getElem?_written, getElem?_overwrite room]
    by_cases early : index < fp.file.offset
    · rw [if_pos (by omega), if_pos early, valid _ (by omega),
        getElem?_eq_getElem (by omega), getD_some]
    rw [if_neg (by omega), if_neg early]
    by_cases within : index < fp.file.offset + chunk.length
    · rw [if_pos (by omega), if_pos within]
      congr 1
      omega
    · rw [if_neg (by omega), if_neg within, valid _ (by omega)]
  · rcases alloc with ⟨_, same⟩ | ⟨_, _, isEmpty⟩
    · exact same.trans mirrors.unget
    · exact isEmpty

end Store

variable (isFile : IsByteFile ops view) (mirrors : Mirrors view base direct fp)
include isFile mirrors

theorem makeRoom_mirrors : Ends (makeRoom ops) fp
      (fun _ after => Represents view (fp.file.beforeWrite direct) after ∧
        after.file.offset < after.file.bufferSize) Never := by
  refine ends_ite.mpr ⟨fun isFull => ?_, fun hasRoom => ?_⟩
  · rw [beforeWrite, if_pos isFull, ends_bind]
    apply writeBack_reset_mirrors isFile mirrors
    intro dev resetMirrors
    exact ⟨⟨_, resetMirrors⟩, mirrors.roomy⟩
  rw [beforeWrite, if_neg hasRoom]
  have before := mirrors.offset_le
  have inside := mirrors.limit_le
  have sized := memory_length_le mirrors.sized
  exact ⟨⟨base, mirrors⟩, by omega⟩

theorem putBuffered_mirrors {bytes : List UInt8} (ne : bytes ≠ []) : Ends (putBuffered ops bytes) fp
      (fun result after => 0 < result.1 ∧ result.1 ≤ bytes.length ∧
        Represents view ((fp.file.beforeWrite direct).afterWrite (bytes.take result.1)) after)
      Never := by
  apply ends_putBuffered ops ne
  refine (makeRoom_mirrors isFile mirrors).imp ?_
  rintro _ after ⟨⟨newBase, roomMirrors⟩, hasRoom⟩
  refine ⟨hasRoom, fun buf ungetBytes alloc some fits => ?_⟩
  have short := chunkOf_le after.file bytes
  exact ⟨chunkOf_pos hasRoom ne, by omega, newBase, roomMirrors.store alloc fits some⟩

theorem write_mirrors {bytes : List UInt8} (ne : bytes ≠ []) : Ends (write ops bytes) fp
      (fun count after => 0 < count ∧ count ≤ bytes.length ∧
        Represents view ((fp.file.beforeWrite direct).afterWrite (bytes.take count)) after)
      Never := by
  have length : bytes.length ≠ 0 := Nat.pos_iff_ne_zero.mp (length_pos_iff.mpr ne)
  simp only [write, takeChunk, ends_bind, ends_getFile]
  refine (ends_ensure length).mpr ?_
  refine (initBufmode_mirrors isFile mirrors).imp ?_
  rintro _ ⟨_, dev⟩ ⟨modeMirrors, bufmode, rfl⟩
  have buffered : ¬ Unbuffered { fp.file with bufmode } := by
    rintro (disabled | noBuffer)
    · cases disabled
    · exact modeMirrors.bufmode noBuffer
  rw [if_neg buffered]
  refine (putBuffered_mirrors isFile modeMirrors ne).mono ?_ (fun _ _ impossible => impossible)
  rintro ⟨chunk, flushLine⟩ after ⟨pos, short, newBase, stored⟩
  refine ends_ite.mpr ⟨fun _ => ?_, fun _ => ⟨pos, short, newBase, stored⟩⟩
  rw [ends_bind]
  refine (writeBack_mirrors isFile stored).imp ?_
  rintro _ final ⟨finalMirrors, _⟩
  exact ⟨pos, short, newBase, finalMirrors⟩

theorem flushDirty_mirrors : Ends (flushDirty ops) fp
      (fun _ after => Mirrors view base direct after ∧
        after.file.dirtyBegin = after.file.dirtyEnd) Never := by
  refine ends_ite.mpr ⟨fun _ => ?_, fun clean => ⟨mirrors, (not_not.mp clean).symm⟩⟩
  refine (writeBack_mirrors isFile mirrors).imp ?_
  rintro _ ⟨_, dev⟩ ⟨written, rfl⟩
  exact ⟨written, rfl⟩

theorem savePos_mirrors (clean : fp.file.dirtyBegin = fp.file.dirtyEnd) : Ends (savePos ops) fp
      (fun preserveBuf after => preserveBuf = false ∧ view after.device = direct.toByteFile ∧
        ∃ bufmode, after.file = { fp.file with type := .fileLike, bufmode } ∧
          bufmode ≠ .noBuffer) Never := by
  simp only [savePos, ends_bind]
  refine (initType_mirrors isFile mirrors).imp ?_
  rintro _ ⟨_, typedDev⟩ ⟨typedMirrors, rfl⟩
  refine (initBufmode_mirrors isFile typedMirrors).imp ?_
  rintro _ ⟨_, dev⟩ ⟨ready, bufmode, rfl⟩
  have contents : direct.contents = (view dev).contents := ready.contents_eq clean
  have position : (view dev).position = base + fp.file.ioOffset := ready.devicePosition
  have caller : direct.position = base + fp.file.offset := ready.position
  refine ends_ite.mpr ⟨fun _ => ?_, fun same => ?_⟩
  · have target : ((view dev).position : Int) +
        ((fp.file.offset : Int) - fp.file.ioOffset) = (direct.position : Nat) := by omega
    rw [ends_bind, ends_attempt]
    refine (isFile.seek_to target).of_never.imp ?_
    rintro _ after ⟨viewed, _⟩
    refine ⟨rfl, viewed.trans ?_, bufmode, rfl, ready.bufmode⟩
    exact ByteFile.ext contents.symm rfl
  · have sameOffset : fp.file.offset = fp.file.ioOffset := by
      by_contra other
      exact same ⟨ready.bufmode, other⟩
    refine ⟨rfl, ByteFile.ext contents.symm ?_, bufmode, rfl, ready.bufmode⟩
    show (view dev).position = direct.position
    omega

theorem flush_mirrors : Ends (flush ops) fp
      (fun _ after => Represents view direct after ∧ view after.device = direct.toByteFile)
      Never := by
  simp only [flush, ends_bind]
  refine (flushDirty_mirrors isFile mirrors).imp ?_
  rintro _ flushed ⟨flushedMirrors, clean⟩
  refine (savePos_mirrors isFile flushedMirrors clean).imp ?_
  rintro _ ⟨_, dev⟩ ⟨rfl, viewed, bufmode, rfl, buffered⟩
  rw [if_neg (by simp)]
  simp only [ends_bind, ends_io]
  refine (isFile.postFlush dev).of_never.imp ?_
  intro _ after same
  have viewedAfter := same.trans viewed
  refine ⟨⟨direct.position, { flushedMirrors with
    devicePosition := ?_, position := rfl, offset_le := le_rfl, limit_le := Nat.zero_le _,
    contents := .inl ⟨rfl, ?_⟩, valid := ?_, type := by simp, bufmode := buffered,
    unget := rfl }⟩, viewedAfter⟩
  · rw [viewedAfter]
    rfl
  · rw [viewedAfter]
  · exact fun index isBelow => absurd isBelow (Nat.not_lt_zero index)

theorem tell_mirrors : Ends (tell ops) fp
      (fun position after => position = direct.position ∧ Represents view direct after) Never := by
  simp only [tell, ends_bind, ends_io]
  refine (isFile.seek_to (add_zero _)).of_never.imp ?_
  rintro position dev ⟨viewed, rfl⟩
  refine ⟨?_, base, mirrors.of_device viewed⟩
  rw [mirrors.devicePosition, mirrors.position, mirrors.unget]
  simp only [length_nil]
  omega

omit isFile in
theorem Mirrors.seek_eq (clean : fp.file.dirtyBegin = fp.file.dirtyEnd) (offset : Int)
    (whence : Whence) :
    (view fp.device).seek (fp.file.seekOffset offset whence) whence =
      direct.toByteFile.seek offset whence := by
  have contents := mirrors.contents_eq clean
  have dev := mirrors.devicePosition
  have caller := mirrors.position
  cases whence with
  | seekCur =>
    have target : ((view fp.device).position : Int) +
        (offset + ((fp.file.offset : Int) - fp.file.ioOffset)) =
          direct.position + offset := by omega
    simp only [ByteFile.seek, seekOffset, if_true, target, contents]
  | seekSet | seekEnd => simp [ByteFile.seek, seekOffset, contents]
  | other => rfl

theorem seek_mirrors {offset : Int} {whence : Whence} (proper : whence ≠ .other) :
    Ends (seek ops offset whence) fp
      (fun _ after => ∃ file, direct.toByteFile.seek offset whence = some file ∧
        Represents view { file with eof := false } after)
      (fun fault after => fault = .errno .einval ∧
        direct.toByteFile.seek offset whence = none ∧ Represents view direct after) := by
  have valid : whence = .seekCur ∨ whence = .seekSet ∨ whence = .seekEnd := by
    cases whence with
    | other => exact absurd rfl proper
    | _ => simp
  simp only [seek, ends_bind]
  refine (writeBack_mirrors isFile mirrors).of_never.imp ?_
  rintro _ ⟨_, writtenDev⟩ ⟨written, rfl⟩
  refine (ends_ensure valid).mpr ?_
  have sameSeek := written.seek_eq rfl offset whence
  simp only [ends_ioOr]
  refine (isFile.seek writtenDev _ whence).mono ?_ ?_
  · rintro _ dev ⟨seeks, _⟩
    have target := sameSeek.symm.trans seeks
    refine ⟨view dev, target, (view dev).position, { written with
      devicePosition := rfl, position := rfl, offset_le := le_rfl,
      limit_le := Nat.zero_le _, contents := .inl ⟨rfl, rfl⟩, valid := ?_, unget := rfl,
      eof := ?_ }⟩
    · exact fun index isBelow => absurd isBelow (Nat.not_lt_zero index)
    · simp [eofBit]
  · rintro _ dev ⟨fails, rfl, same⟩
    exact ⟨rfl, sameSeek.symm.trans fails, base, written.of_device same⟩

end Mlibc.AbstractFile
