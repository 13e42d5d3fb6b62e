import Mlibc.AbstractFileRules

/-! # Output that is pending -/

namespace Mlibc.AbstractFile

open List

variable {δ : Type}

/-! ### The bytes that a device accepts -/

/-- A device with the bytes that it has accepted. -/
structure Logged (δ : Type) where
  device : δ
  accepted : List UInt8

def Logged.lift {α : Type} (op : EStateM Errno δ α) : EStateM Errno (Logged δ) α := fun logged =>
  match op logged.device with
  | .ok value device => .ok value { logged with device }
  | .error code device => .error code { logged with device }

def logged (ops : FileOps δ) : FileOps (Logged δ) where
  determineType := Logged.lift ops.determineType
  determineBufmode := Logged.lift ops.determineBufmode
  ioRead maxSize := Logged.lift (ops.ioRead maxSize)
  ioWrite bytes := fun logged =>
    match ops.ioWrite bytes logged.device with
    | .ok ioSize device => .ok ioSize ⟨device, logged.accepted ++ bytes.take ioSize⟩
    | .error code device => .error code { logged with device }
  ioSeek offset whence := Logged.lift (ops.ioSeek offset whence)
  postFlush := Logged.lift ops.postFlush
  allocate := ops.allocate

/-- `io_write` accepts at least one byte, and the kind of the stream is known once it has been
determined. -/
structure AcceptsBytes (ops : FileOps δ) : Prop where
  write : ∀ device bytes, bytes ≠ [] → Ends (ops.ioWrite bytes) device
    (fun ioSize _ => 0 < ioSize ∧ ioSize ≤ bytes.length) (fun _ _ => True)
  type : ∀ device, Ends ops.determineType device (fun type _ => type ≠ .unknown) (fun _ _ => True)
  bufmode : ∀ device, Ends ops.determineBufmode device
    (fun bufmode _ => bufmode ≠ .unknown) (fun _ _ => True)

structure Records (ops : FileOps δ) (acc : δ → List UInt8) : Prop where
  write : ∀ device bytes, bytes ≠ [] → Ends (ops.ioWrite bytes) device
    (fun ioSize after => 0 < ioSize ∧ ioSize ≤ bytes.length ∧
      acc after = acc device ++ bytes.take ioSize)
    (fun _ after => acc after = acc device)
  type : ∀ device, Ends ops.determineType device
    (fun type after => type ≠ .unknown ∧ acc after = acc device)
    (fun _ after => acc after = acc device)
  bufmode : ∀ device, Ends ops.determineBufmode device
    (fun bufmode after => bufmode ≠ .unknown ∧ acc after = acc device)
    (fun _ after => acc after = acc device)
  postFlush : ∀ device, Ends ops.postFlush device (fun _ after => acc after = acc device)
    (fun _ after => acc after = acc device)

theorem Logged.ends_lift {α : Type} (op : EStateM Errno δ α) {logged : Logged δ}
    {returns : α → δ → Prop} {fails : Errno → δ → Prop}
    (ends : Ends op logged.device returns fails) :
    Ends (Logged.lift op) logged
      (fun value after => returns value after.device ∧ after.accepted = logged.accepted)
      (fun code after => fails code after.device ∧ after.accepted = logged.accepted) := by
  unfold Ends Logged.lift
  unfold Ends at ends
  cases ran : op logged.device with
  | ok value device | error code device =>
    rw [ran] at ends
    exact ⟨ends, rfl⟩

theorem AcceptsBytes.records {ops : FileOps δ} (accepts : AcceptsBytes ops) :
    Records (logged ops) Logged.accepted where
  write device bytes ne := by
    have ends := accepts.write device.device bytes ne
    unfold Ends at ends ⊢
    simp only [logged]
    cases ran : ops.ioWrite bytes device.device with
    | ok ioSize after =>
      rw [ran] at ends
      exact ⟨ends.1, ends.2, rfl⟩
    | error code after => exact rfl
  type device := (Logged.ends_lift _ (accepts.type device.device)).mono
    (fun _ _ ends => ends) (fun _ _ ends => ends.2)
  bufmode device := (Logged.ends_lift _ (accepts.bufmode device.device)).mono
    (fun _ _ ends => ends) (fun _ _ ends => ends.2)
  postFlush device := (Logged.ends_lift _ (ends_trivial _ _)).mono
    (fun _ _ ends => ends.2) (fun _ _ ends => ends.2)

/-! ### The invariant -/

/-- The accepted bytes and the bytes that wait in the buffer are the bytes that were taken
from the callers. -/
structure Pending (acc : δ → List UInt8) (taken : List UInt8) (fp : Stream δ) : Prop where
  delivered : acc fp.device ++ segment fp.file.memory fp.file.ioOffset fp.file.offset = taken
  limit : fp.file.validLimit = fp.file.offset
  fits : fp.file.offset ≤ fp.file.bufferSize
  roomy : 0 < fp.file.bufferSize
  sized : ∀ buf ∈ fp.file.buffer, buf.length = fp.file.bufferSize
  allocated : 0 < fp.file.offset → fp.file.buffer ≠ none
  dirty : fp.file.dirtyBegin = fp.file.dirtyEnd ∧ fp.file.ioOffset = fp.file.offset ∨
    (fp.file.dirtyBegin < fp.file.dirtyEnd ∧ fp.file.ioOffset = fp.file.dirtyBegin ∧
      fp.file.offset = fp.file.dirtyEnd ∧
      ¬ fp.file.Unbuffered ∧ fp.file.bufmode ≠ .unknown)

def Interrupted (acc : δ → List UInt8) (taken : List UInt8) (fault : Fault)
    (fp : Stream δ) : Prop :=
  (∃ code, fault = .errno code) ∧ Pending acc taken fp

section Functions

variable {ops : FileOps δ} {acc : δ → List UInt8} {taken : List UInt8} {fp : Stream δ}

section

variable (pending : Pending acc taken fp)

include pending

theorem Pending.memory_length (pos : 0 < fp.file.offset) :
    fp.file.memory.length = fp.file.bufferSize := by
  rcases Option.ne_none_iff_exists'.mp (pending.allocated pos) with ⟨buf, isBuffer⟩
  rw [memory, isBuffer]
  exact pending.sized buf isBuffer

theorem Pending.of_device {device : δ} (same : acc device = acc fp.device) :
    Pending acc taken { fp with device } :=
  { pending with delivered := by rw [same]; exact pending.delivered }

theorem Pending.ioOffset_eq (clean : fp.file.dirtyBegin = fp.file.dirtyEnd) :
    fp.file.ioOffset = fp.file.offset := by
  rcases pending.dirty with ⟨_, same⟩ | ⟨isDirty, _⟩
  · exact same
  · omega

theorem Pending.accepted_eq (clean : fp.file.dirtyBegin = fp.file.dirtyEnd) :
    acc fp.device = taken := by
  have delivered := pending.delivered
  rw [pending.ioOffset_eq clean, segment_self, append_nil] at delivered
  exact delivered

theorem Pending.emptied {file : AbstractFile} {device : δ} (everything : acc device = taken)
    (sameBuf : file.buffer = fp.file.buffer)
    (sameSize : file.bufferSize = fp.file.bufferSize) (clean : file.dirtyBegin = file.dirtyEnd)
    (offset : file.offset = 0) (ioOffset : file.ioOffset = 0) (limit : file.validLimit = 0) :
    Pending acc taken ⟨file, device⟩ where
  delivered := by
    rw [offset, ioOffset, segment_self, append_nil, everything]
  limit := limit.trans offset.symm
  fits := by
    show file.offset ≤ file.bufferSize
    omega
  roomy := by
    rw [sameSize]
    exact pending.roomy
  sized := by
    intro buf isBuffer
    rw [sameSize]
    exact pending.sized buf (sameBuf ▸ isBuffer)
  allocated := by
    show 0 < file.offset → _
    omega
  dirty := .inl ⟨clean, ioOffset.trans offset.symm⟩

end

variable (records : Records ops acc) (pending : Pending acc taken fp)
include records pending

theorem initType_pending : Ends (initType ops) fp
      (fun _ after => Pending acc taken after ∧ after.file.type ≠ .unknown ∧
        ∃ type, after.file = { fp.file with type })
      (Interrupted acc taken) := by
  apply ends_initType
  · intro known
    exact ⟨pending, known, fp.file.type, rfl⟩
  intro _
  refine (records.type fp.device).mono ?_ ?_
  · rintro type device ⟨known, same⟩
    exact ⟨known, { pending.of_device same with }, known, type, rfl⟩
  · intro code device same
    exact ⟨⟨code, rfl⟩, pending.of_device same⟩

theorem initBufmode_pending : Ends (initBufmode ops) fp
      (fun _ after => Pending acc taken after ∧ after.file.bufmode ≠ .unknown ∧
        (after.file.dirtyBegin = after.file.dirtyEnd ↔ fp.file.dirtyBegin = fp.file.dirtyEnd))
      (Interrupted acc taken) := by
  apply ends_initBufmode
  · intro known
    exact ⟨pending, known, .rfl⟩
  intro unknown
  have clean : fp.file.dirtyBegin = fp.file.dirtyEnd ∧ fp.file.ioOffset = fp.file.offset := by
    rcases pending.dirty with clean | ⟨_, _, _, _, known⟩
    · exact clean
    · exact absurd unknown known
  refine (records.bufmode fp.device).mono ?_ ?_
  · rintro bufmode device ⟨known, same⟩
    exact ⟨known, { pending.of_device same with dirty := .inl clean }, known, .rfl⟩
  · intro code device same
    exact ⟨⟨code, rfl⟩, pending.of_device same⟩

theorem ioWrite_pending (atDirty : fp.file.ioOffset = fp.file.dirtyBegin)
    (atEnd : fp.file.offset = fp.file.dirtyEnd)
    (remains : fp.file.ioOffset < fp.file.dirtyEnd) :
    Ends (ops.ioWrite (segment fp.file.memory fp.file.ioOffset fp.file.dirtyEnd)) fp.device
      (fun ioSize device => 0 < ioSize ∧ Pending acc taken ⟨{ fp.file with
          ioOffset := fp.file.ioOffset + ioSize
          dirtyBegin := fp.file.dirtyBegin + ioSize }, device⟩)
      (fun _ device => acc device = acc fp.device) := by
  have inside := pending.memory_length (by omega)
  have fits := pending.fits
  have length : (segment fp.file.memory fp.file.ioOffset fp.file.dirtyEnd).length =
      fp.file.dirtyEnd - fp.file.ioOffset := length_segment (by omega)
  have ne : segment fp.file.memory fp.file.ioOffset fp.file.dirtyEnd ≠ [] := by
    rw [← length_pos_iff]
    omega
  refine (records.write fp.device _ ne).imp ?_
  rintro ioSize device ⟨pos, short, recorded⟩
  rw [length] at short
  rw [take_segment _ short] at recorded
  refine ⟨pos, { pending with delivered := ?_, dirty := ?_ }⟩
  · rw [← pending.delivered, recorded, append_assoc]
    have split := segment_append fp.file.memory (Nat.le_add_right fp.file.ioOffset ioSize)
      (show fp.file.ioOffset + ioSize ≤ fp.file.offset by omega)
    rw [← split]
    rfl
  rcases pending.dirty with ⟨clean, _⟩ | ⟨_, _, _, modes⟩
  · omega
  show (fp.file.dirtyBegin + ioSize = fp.file.dirtyEnd ∧
      fp.file.ioOffset + ioSize = fp.file.offset) ∨
    (fp.file.dirtyBegin + ioSize < fp.file.dirtyEnd ∧
      fp.file.ioOffset + ioSize = fp.file.dirtyBegin + ioSize ∧ _)
  by_cases done : fp.file.dirtyBegin + ioSize = fp.file.dirtyEnd
  · exact .inl ⟨done, by omega⟩
  · exact .inr ⟨by omega, by omega, atEnd, modes⟩

theorem writeBack_pending : Ends (writeBack ops) fp (fun _ after => Pending acc taken after ∧
        after.file.dirtyBegin = after.file.dirtyEnd ∧ after.file.bufmode = fp.file.bufmode)
      (Interrupted acc taken) := by
  simp only [writeBack, ends_bind]
  refine (initType_pending records pending).imp ?_
  rintro _ typed ⟨typedPending, known, type, sameFile⟩
  have sameMode : typed.file.bufmode = fp.file.bufmode := by rw [sameFile]
  refine ends_ite.mpr ⟨fun clean => ⟨typedPending, clean, sameMode⟩, fun isDirty => ?_⟩
  rcases typedPending.dirty with ⟨clean, _⟩ | ⟨_, atDirty, atEnd, _⟩
  · exact absurd clean isDirty
  simp only [ends_bind]
  apply ends_seekToDirty_of_eq ops known atDirty
  refine (ends_writeBackLoop ops (fun after => Pending acc taken after ∧
      after.file.ioOffset = after.file.dirtyBegin ∧ after.file.offset = after.file.dirtyEnd ∧
      after.file.bufmode = fp.file.bufmode)
    ?_ ?_ (by omega) ⟨typedPending, atDirty, atEnd, sameMode⟩).imp ?_
  rotate_left 2
  · rintro _ after ⟨⟨afterPending, afterDirty, afterEnd, afterMode⟩, done⟩
    refine ⟨afterPending, ?_, afterMode⟩
    rcases afterPending.dirty with ⟨clean, _⟩ | ⟨isDirty, _⟩
    · exact clean
    · omega
  · rintro current ⟨curPending, _, curEnd, _⟩ remains
    have inside := curPending.memory_length (by omega)
    have fits := curPending.fits
    omega
  · rintro current ⟨curPending, curDirty, curEnd, curMode⟩ remains
    refine (ioWrite_pending records curPending curDirty curEnd remains).mono ?_ ?_
    · rintro ioSize device ⟨pos, next⟩
      exact ⟨pos, next, congrArg (· + ioSize) curDirty, curEnd, curMode⟩
    · intro code device same
      exact ⟨⟨code, rfl⟩, { curPending.of_device same with }⟩

theorem reset_pending (clean : fp.file.dirtyBegin = fp.file.dirtyEnd) : Ends (reset ops) fp
      (fun _ after => Pending acc taken after ∧ after.file.offset = 0 ∧
        after.file.bufmode = fp.file.bufmode)
      (Interrupted acc taken) := by
  simp only [reset, ends_bind]
  refine (initType_pending records pending).imp ?_
  rintro _ typed ⟨typedPending, _, type, sameFile⟩
  have typedClean : typed.file.dirtyBegin = typed.file.dirtyEnd := by
    rw [sameFile]
    exact clean
  refine (ends_ensure (fun _ => typedPending.limit.symm)).mpr ((ends_ensure typedClean).mpr ?_)
  refine ⟨typedPending.emptied (typedPending.accepted_eq typedClean) rfl rfl typedClean rfl rfl rfl,
    rfl, ?_⟩
  show typed.file.bufmode = fp.file.bufmode
  rw [sameFile]

theorem makeRoom_pending : Ends (makeRoom ops) fp
      (fun _ after => Pending acc taken after ∧ after.file.offset < after.file.bufferSize ∧
        after.file.bufmode = fp.file.bufmode)
      (Interrupted acc taken) := by
  refine ends_ite.mpr ⟨fun isFull => ?_, fun hasRoom => ?_⟩
  · rw [ends_bind]
    refine (writeBack_pending records pending).imp ?_
    rintro _ written ⟨writtenPending, clean, writtenMode⟩
    refine (reset_pending records writtenPending clean).imp ?_
    rintro _ after ⟨afterPending, atStart, afterMode⟩
    have roomy := afterPending.roomy
    exact ⟨afterPending, by omega, afterMode.trans writtenMode⟩
  · have fits := pending.fits
    exact ⟨pending, by omega, rfl⟩

omit records in
theorem Pending.store {buf ungetBytes chunk : List UInt8}
    (alloc : fp.file.AllocatedAs buf ungetBytes)
    (fits : fp.file.offset + chunk.length ≤ fp.file.bufferSize) (ne : chunk ≠ [])
    (buffered : ¬ fp.file.Unbuffered) (known : fp.file.bufmode ≠ .unknown) :
    Pending acc (taken ++ chunk) { fp with file := fp.file.store buf ungetBytes chunk } := by
  have size := alloc.length pending.sized
  have inside : fp.file.offset ≤ buf.length := by omega
  have pos := length_pos_iff.mpr ne
  have before : fp.file.ioOffset ≤ fp.file.offset := by
    rcases pending.dirty with ⟨_, same⟩ | ⟨_, same, atEnd, _⟩ <;> omega
  have sameSegment : segment buf fp.file.ioOffset fp.file.offset =
      segment fp.file.memory fp.file.ioOffset fp.file.offset := by
    rcases alloc with ⟨isBuffer, _⟩ | ⟨isNone, _⟩
    · rw [memory, isBuffer, Option.getD_some]
    have atStart : fp.file.offset = 0 := by
      by_contra other
      exact pending.allocated (by omega) isNone
    have ioAtStart : fp.file.ioOffset = 0 := by omega
    rw [atStart, ioAtStart, segment_self, segment_self]
  have limit := pending.limit
  refine { pending with
    delivered := ?_, limit := ?_, fits := fits, sized := ?_, allocated := ?_, dirty := .inr ?_ }
  · show acc fp.device ++ segment (overwrite buf fp.file.offset chunk)
      fp.file.ioOffset (fp.file.offset + chunk.length) = taken ++ chunk
    rw [segment_overwrite inside before, sameSegment, ← append_assoc, pending.delivered]
  · show max (fp.file.offset + chunk.length) fp.file.validLimit = fp.file.offset + chunk.length
    omega
  · rintro other ⟨rfl⟩
    show (overwrite buf fp.file.offset chunk).length = fp.file.bufferSize
    rw [length_overwrite inside]
    omega
  · exact fun _ => Option.some_ne_none _
  · simp only [AbstractFile.store, markDirty]
    rcases pending.dirty with ⟨clean, same⟩ | ⟨isDirty, same, atEnd, _⟩
    · rw [if_neg (not_not.mpr clean), if_neg (not_not.mpr clean)]
      exact ⟨by omega, same, rfl, buffered, known⟩
    · rw [if_pos (by omega), if_pos (by omega)]
      exact ⟨by omega, by omega, by omega, buffered, known⟩

variable {bytes : List UInt8}

theorem putBuffered_pending (ne : bytes ≠ []) (buffered : ¬ fp.file.Unbuffered)
    (known : fp.file.bufmode ≠ .unknown) :
    Ends (putBuffered ops bytes) fp
      (fun result after => Pending acc (taken ++ bytes.take result.1) after)
      (Interrupted acc taken) := by
  apply ends_putBuffered ops ne
  refine (makeRoom_pending records pending).imp ?_
  rintro _ after ⟨afterPending, hasRoom, sameMode⟩
  refine ⟨hasRoom, fun buf ungetBytes alloc some fits => afterPending.store alloc fits some ?_ ?_⟩
  · rw [Unbuffered, sameMode]
    exact buffered
  · rw [sameMode]
    exact known

theorem writeUnbuffered_pending (ne : bytes ≠ []) (unbuffered : fp.file.Unbuffered) :
    Ends (writeUnbuffered ops bytes) fp
      (fun ioSize after => Pending acc (taken ++ bytes.take ioSize) after)
      (Interrupted acc taken) := by
  have clean : fp.file.dirtyBegin = fp.file.dirtyEnd ∧ fp.file.ioOffset = fp.file.offset := by
    rcases pending.dirty with clean | ⟨_, _, _, buffered, _⟩
    · exact clean
    · exact absurd unbuffered buffered
  simp only [writeUnbuffered, ends_bind]
  refine (ends_ensure clean.1).mpr ?_
  rw [ends_ioOr]
  refine (records.write fp.device bytes ne).mono ?_ ?_
  · rintro ioSize device ⟨_, _, recorded⟩
    refine { pending with delivered := ?_ }
    have delivered := pending.delivered
    rw [clean.2, segment_self, append_nil] at delivered
    rw [clean.2, segment_self, append_nil, recorded, delivered]
  · intro code device same
    exact ⟨⟨code, rfl⟩, { pending.of_device same with }⟩

theorem takeChunk_pending (ne : bytes ≠ []) : Ends (takeChunk ops bytes) fp
      (fun result after => Pending acc (taken ++ bytes.take result.1) after)
      (Interrupted acc taken) := by
  have length : bytes.length ≠ 0 := Nat.pos_iff_ne_zero.mp (length_pos_iff.mpr ne)
  simp only [takeChunk, ends_bind]
  refine (ends_ensure length).mpr ?_
  refine (initBufmode_pending records pending).imp ?_
  rintro _ after ⟨afterPending, known, _⟩
  refine ends_ite.mpr ⟨fun unbuffered => ?_, fun buffered => ?_⟩
  · rw [ends_bind]
    exact writeUnbuffered_pending records afterPending ne unbuffered
  · exact putBuffered_pending records afterPending ne buffered known

theorem savePos_pending (clean : fp.file.dirtyBegin = fp.file.dirtyEnd) : Ends (savePos ops) fp
      (fun preserveBuf after => preserveBuf = false ∧ Pending acc taken after ∧
        after.file.dirtyBegin = after.file.dirtyEnd)
      (Interrupted acc taken) := by
  simp only [savePos, ends_bind, ends_getFile]
  refine (initType_pending records pending).imp ?_
  rintro _ typed ⟨typedPending, _, type, sameFile⟩
  refine (initBufmode_pending records typedPending).imp ?_
  rintro _ after ⟨afterPending, _, sameDirty⟩
  have afterClean : after.file.dirtyBegin = after.file.dirtyEnd := by
    rw [sameDirty, sameFile]
    exact clean
  rw [if_neg (fun seeks => seeks.2 (afterPending.ioOffset_eq afterClean).symm)]
  exact ⟨rfl, afterPending, afterClean⟩

theorem flush_pending : Ends (flush ops) fp
      (fun _ after => Pending acc taken after ∧ acc after.device = taken)
      (Interrupted acc taken) := by
  simp only [flush, ends_bind]
  have flushes : Ends (flushDirty ops) fp
      (fun _ after => Pending acc taken after ∧ after.file.dirtyBegin = after.file.dirtyEnd)
      (Interrupted acc taken) := by
    refine ends_ite.mpr ⟨fun _ => ?_, fun clean => ⟨pending, (not_not.mp clean).symm⟩⟩
    refine (writeBack_pending records pending).imp ?_
    rintro _ after ⟨afterPending, clean, _⟩
    exact ⟨afterPending, clean⟩
  refine flushes.imp ?_
  rintro _ flushed ⟨flushedPending, clean⟩
  refine (savePos_pending records flushedPending clean).imp ?_
  rintro _ saved ⟨rfl, savedPending, savedClean⟩
  have everything := savedPending.accepted_eq savedClean
  rw [if_neg (by simp)]
  simp only [ends_bind, ends_io]
  refine (records.postFlush saved.device).mono ?_ ?_
  · intro _ device same
    exact ⟨savedPending.emptied (same.trans everything) rfl rfl rfl rfl rfl rfl,
      same.trans everything⟩
  · intro code device same
    exact ⟨⟨code, rfl⟩, savedPending.emptied (same.trans everything) rfl rfl rfl rfl rfl rfl⟩

end Functions

end Mlibc.AbstractFile
