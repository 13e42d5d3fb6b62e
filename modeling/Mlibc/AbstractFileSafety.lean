import Mlibc.AbstractFileOutput
import Mlibc.AbstractFileRuns

/-! # The indices of a stream -/

namespace Mlibc.AbstractFile

variable {δ α : Type}

/-- Any function may fail at any time. -/
structure Transfers (ops : FileOps δ) : Prop extends AcceptsBytes ops where
  read : ∀ device maxSize, 0 < maxSize →
    Ends (ops.ioRead maxSize) device (fun bytes _ => bytes.length ≤ maxSize) fun _ _ => True

/-- The indices of a stream are in order. -/
structure Indexed (file : AbstractFile) : Prop where
  offset : file.offset ≤ file.validLimit
  limit : file.validLimit ≤ file.bufferSize
  ioOffset : file.ioOffset ≤ file.validLimit
  dirty : file.dirtyBegin = file.dirtyEnd ∨
    file.dirtyBegin ≤ file.dirtyEnd ∧ file.dirtyEnd ≤ file.validLimit
  unget : file.ungetBytes.length ≤ ungetBufferSize

/-- With what the checks of the functions need. -/
structure Consistent (file : AbstractFile) : Prop extends Indexed file where
  room : 0 < file.bufferSize
  sized : ∀ buf ∈ file.buffer, buf.length = file.bufferSize
  filled : file.buffer = none → file.validLimit = 0
  buffered : file.bufmode = .unknown ∨ file.bufmode = .noBuffer → file.dirtyBegin = file.dirtyEnd

theorem Consistent.memory {file : AbstractFile} (holds : file.Consistent) :
    file.validLimit ≤ file.memory.length := by
  cases isBuffer : file.buffer with
  | none =>
    rw [holds.filled isBuffer]
    exact Nat.zero_le _
  | some buf =>
    rw [AbstractFile.memory, isBuffer]
    exact holds.limit.trans (holds.sized buf isBuffer).ge

theorem new_consistent (type : StreamType) (bufmode : BufferMode) :
    ({ new with type, bufmode } : AbstractFile).Consistent where
  offset := le_rfl
  limit := Nat.zero_le _
  ioOffset := le_rfl
  dirty := .inl rfl
  unget := Nat.zero_le _
  room := Nat.succ_pos _
  sized := nofun
  filled := fun _ => rfl
  buffered := fun _ => rfl

/-- The program returns as the postcondition says, or fails with an error of the device. -/
abbrev Safe (prog : FileM δ α) (fp : Stream δ) (returns : α → Stream δ → Prop) : Prop :=
  Ends prog fp returns fun fault after => (∃ code, fault = .errno code) ∧ after.file.Consistent

abbrev Preserves (prog : FileM δ α) (fp : Stream δ) : Prop :=
  Safe prog fp fun _ after => after.file.Consistent

variable {ops : FileOps δ} {fp : Stream δ} {returns : Unit → Stream δ → Prop}
  (moves : Transfers ops) (holds : fp.file.Consistent)

include moves holds

theorem safe_initType (goesOn : ∀ type dev, type ≠ .unknown →
      returns () ⟨{ fp.file with type }, dev⟩) : Safe (initType ops) fp returns := by
  refine ends_initType ops (fun known => goesOn fp.file.type fp.device known) fun _ => ?_
  exact (moves.type fp.device).mono (fun type dev known => ⟨known, goesOn type dev known⟩)
    fun code _ _ => ⟨⟨code, rfl⟩, holds⟩

theorem safe_initBufmode (goesOn : ∀ bufmode dev, bufmode ≠ .unknown →
      ({ fp.file with bufmode } : AbstractFile).Consistent →
      returns () ⟨{ fp.file with bufmode }, dev⟩) : Safe (initBufmode ops) fp returns := by
  refine ends_initBufmode ops (fun known => goesOn fp.file.bufmode fp.device known holds)
    fun unknown => ?_
  exact (moves.bufmode fp.device).mono (fun bufmode dev known => ⟨known, goesOn bufmode dev known
      { holds with buffered := fun _ => holds.buffered (.inl unknown) }⟩)
    fun code _ _ => ⟨⟨code, rfl⟩, holds⟩

omit moves in
theorem safe_seekToDirty (known : fp.file.type ≠ .unknown)
    (goesOn : ∀ dev, returns () ⟨{ fp.file with ioOffset := fp.file.dirtyBegin }, dev⟩) :
    Safe (seekToDirty ops) fp returns := by
  by_cases atDirty : fp.file.ioOffset = fp.file.dirtyBegin
  · have unmoved := goesOn fp.device
    rw [← atDirty] at unmoved
    exact ends_seekToDirty_of_eq ops known atDirty unmoved
  simp only [seekToDirty, ends_bind, ends_getFile, if_pos atDirty]
  refine ends_ite.mpr ⟨fun _ => ?_, fun notFile => ?_⟩
  · simp only [ends_bind, ends_io]
    exact (ends_trivial _ _).mono (fun _ dev _ => goesOn dev) fun code _ _ => ⟨⟨code, rfl⟩, holds⟩
  · have isPipe : fp.file.type = .pipeLike := by
      cases type : fp.file.type <;> simp_all
    exact (ends_bind _ _).mpr ((ends_ensure isPipe).mpr ⟨⟨_, rfl⟩, holds⟩)

/-- What writing the dirty bytes leaves as it was. -/
def Rewritten (fp after : Stream δ) : Prop :=
  after.file.Consistent ∧ after.file.offset = fp.file.offset ∧
    after.file.validLimit = fp.file.validLimit ∧ after.file.bufmode = fp.file.bufmode

theorem safe_writeBackLoop (atDirty : fp.file.ioOffset = fp.file.dirtyBegin)
    (isDirty : fp.file.dirtyBegin ≤ fp.file.dirtyEnd)
    (inside : fp.file.dirtyEnd ≤ fp.file.validLimit) :
    Safe (writeBackLoop ops (fp.file.dirtyEnd - fp.file.dirtyBegin + 1)) fp fun _ after =>
      Rewritten fp after ∧ after.file.dirtyBegin = after.file.dirtyEnd := by
  refine (ends_writeBackLoop ops (fun after => Rewritten fp after ∧
    after.file.ioOffset = after.file.dirtyBegin ∧ after.file.dirtyBegin ≤ after.file.dirtyEnd ∧
      after.file.dirtyEnd ≤ after.file.validLimit) ?_ ?_ (by omega)
        ⟨⟨holds, rfl, rfl, rfl⟩, atDirty, isDirty, inside⟩).imp ?_
  · rintro after ⟨⟨ok, -⟩, -, -, inside⟩ _
    exact ⟨inside.trans ok.memory, memory_length_le ok.sized⟩
  · rintro after ⟨⟨ok, isOffset, isLimit, isMode⟩, atDirty, isDirty, inside⟩ remains
    have length : (segment after.file.memory after.file.ioOffset after.file.dirtyEnd).length =
        after.file.dirtyEnd - after.file.ioOffset :=
      length_segment (inside.trans ok.memory)
    have ne : segment after.file.memory after.file.ioOffset after.file.dirtyEnd ≠ [] := by
      rw [← List.length_pos_iff]
      omega
    refine (moves.write after.device _ ne).mono ?_ fun code _ _ => ⟨⟨code, rfl⟩, { ok with }⟩
    rintro ioSize dev ⟨pos, size⟩
    have below : after.file.dirtyBegin + ioSize ≤ after.file.dirtyEnd := by omega
    refine ⟨pos, ⟨{ ok with
      ioOffset := atDirty ▸ below.trans inside
      dirty := .inr ⟨below, inside⟩
      buffered := fun mode => by have clean := ok.buffered mode; omega },
        isOffset, isLimit, isMode⟩, congrArg (· + ioSize) atDirty, below, inside⟩
  · rintro _ after ⟨⟨kept, atDirty, isDirty, -⟩, done⟩
    exact ⟨kept, by omega⟩

theorem safe_writeBack : Safe (writeBack ops) fp fun _ after =>
    Rewritten fp after ∧ after.file.dirtyBegin = after.file.dirtyEnd := by
  refine (ends_bind _ _).mpr (safe_initType moves holds fun type dev known => ?_)
  have typed : ({ fp.file with type } : AbstractFile).Consistent := { holds with }
  refine ends_ite.mpr ⟨fun clean => ⟨⟨typed, rfl, rfl, rfl⟩, clean⟩, fun isDirty => ?_⟩
  obtain ⟨ordered, inside⟩ := typed.dirty.resolve_left isDirty
  refine (ends_bind _ _).mpr (safe_seekToDirty typed known fun dev => ?_)
  exact safe_writeBackLoop moves { typed with ioOffset := ordered.trans inside } rfl ordered inside

/-! ### Reading -/

/-- The stream is written back and emptied at the end of its buffer. -/
theorem safe_restart (atLimit : fp.file.offset = fp.file.validLimit)
    (goesOn : ∀ after : Stream δ, after.file.Consistent → after.file.offset = 0 →
      after.file.validLimit = 0 → after.file.bufmode = fp.file.bufmode → returns () after) :
    Safe (do writeBack ops; reset ops) fp returns := by
  refine (ends_bind _ _).mpr ((safe_writeBack moves holds).imp ?_)
  rintro _ written ⟨⟨ok, isOffset, isLimit, isMode⟩, clean⟩
  refine (ends_bind _ _).mpr (safe_initType moves ok fun type dev _ => ?_)
  have isFull := isOffset.trans (atLimit.trans isLimit.symm)
  simp only [ends_bind, ends_getFile]
  refine (ends_ensure fun _ => isFull).mpr ((ends_ensure clean).mpr (goesOn _ ?_ rfl rfl isMode))
  exact { ok with
    offset := le_rfl
    limit := Nat.zero_le _
    ioOffset := le_rfl
    dirty := .inl clean
    filled := fun _ => rfl }

omit moves in
theorem safe_device {op : EStateM Errno δ α} {returns : α → Stream δ → Prop}
    (ends : Ends op fp.device (fun value dev => returns value { fp with device := dev })
      fun _ _ => True) : Safe (ioOr (fun _ => setStatus errorBit) op) fp returns :=
  (ends_ioOr _ _).mpr (ends.mono (fun _ _ returned => returned)
    fun code _ _ => ⟨⟨code, rfl⟩, { holds with }⟩)

omit moves in
theorem Consistent.allocated {buf memory ungetBytes : List UInt8}
    (alloc : fp.file.AllocatedAs buf ungetBytes) (length : memory.length = buf.length) :
    ({ fp.file with buffer := some memory, ungetBytes } : AbstractFile).Consistent :=
  { holds with
    unget := by
      rcases alloc with ⟨_, rfl⟩ | ⟨_, _, rfl⟩
      · exact holds.unget
      · exact Nat.zero_le _
    sized := by
      rintro _ ⟨⟩
      exact length.trans (alloc.length holds.sized)
    filled := nofun }

theorem safe_fillBuffer : Safe (fillBuffer ops) fp fun more after =>
    after.file.Consistent ∧ (more = true → after.file.offset < after.file.validLimit) := by
  refine ends_ite.mpr ⟨fun atLimit => ?_, fun before => ⟨holds, fun _ => ?_⟩⟩
  · rw [readAhead, ← bind_assoc, ends_bind]
    refine safe_restart moves holds atLimit fun after ok isStart isEmpty _ => ?_
    refine (ends_bind _ _).mpr (ends_ensureAllocation ops fun buf ungetBytes alloc => ?_)
    have allocated := ok.allocated alloc rfl
    simp only [ends_bind, ends_getFile]
    refine safe_device ?_ ?_
    · exact allocated
    refine (moves.read after.device _ ok.room).imp fun bytes dev short => ?_
    refine ends_ite.mpr ⟨fun _ => ⟨{ allocated with }, (absurd · Bool.false_ne_true)⟩, fun ne => ?_⟩
    have size := alloc.length ok.sized
    have length : (overwrite buf 0 bytes).length = buf.length := by
      rw [length_overwrite (Nat.zero_le _)]
      omega
    have copied := ok.allocated alloc length
    refine (ends_bind _ _).mpr ((ends_copyToBuffer rfl (by simpa using short)).mpr ?_)
    refine ⟨{ copied with
      offset := isStart.le.trans (Nat.zero_le _)
      limit := short
      ioOffset := le_rfl
      dirty := copied.dirty.imp_right fun dirty =>
        ⟨dirty.1, (dirty.2.trans isEmpty.le).trans (Nat.zero_le _)⟩
      filled := (absurd · (Option.some_ne_none _)) }, fun _ => ?_⟩
    exact isStart.trans_lt (List.length_pos_iff.mpr ne)
  · exact lt_of_le_of_ne holds.offset before

omit moves in
theorem safe_takeBuffered (available : fp.file.offset < fp.file.validLimit) {maxSize : Nat}
    (pos : maxSize ≠ 0) : Preserves (takeBuffered maxSize) fp := by
  have filled := holds.memory
  simp only [takeBuffered, ends_bind]
  refine (ends_ensure available).mpr ((ends_bufferSegment (by omega) (by omega)
    (memory_length_le holds.sized)).mpr { holds with offset := ?_ })
  show fp.file.offset + min (fp.file.validLimit - fp.file.offset) maxSize ≤ fp.file.validLimit
  omega

theorem safe_read {maxSize : Nat} (pos : maxSize ≠ 0) : Preserves (read ops maxSize) fp := by
  refine (ends_bind _ _).mpr ((ends_ensure pos).mpr ((ends_bind _ _).mpr ?_))
  refine safe_initBufmode moves holds fun bufmode dev _ moded => ?_
  have taken : ({ fp.file with bufmode, ungetBytes := fp.file.ungetBytes.drop maxSize } :
      AbstractFile).Consistent :=
    { moded with unget := (List.length_drop ▸ Nat.sub_le _ _).trans moded.unget }
  simp only [takeUnget, ends_bind, ends_getFile, ends_modifyFile, ends_pure]
  refine ends_ite.mpr ⟨fun _ => taken, fun more => ends_ite.mpr ⟨fun _ => ?_, fun _ => ?_⟩⟩
  · refine (ends_bind _ _).mpr ((ends_bind _ _).mpr (safe_device ?_ ?_))
    · exact taken
    · exact (ends_trivial _ _).imp fun bytes dev _ =>
        ends_ite.mpr ⟨fun _ => { taken with }, fun _ => taken⟩
  · refine (ends_bind _ _).mpr ((ends_bind _ _).mpr ((safe_fillBuffer moves ?_).imp ?_))
    · exact { taken with }
    · rintro (_ | _) after ⟨ok, inside⟩
      · exact ok
      · exact (ends_bind _ _).mpr (safe_takeBuffered ok (inside rfl) more)

/-! ### Writing -/

theorem safe_putBuffered {bytes : List UInt8} (ne : bytes ≠ [])
    (known : fp.file.bufmode ≠ .unknown) (buffered : ¬ fp.file.Unbuffered) :
    Preserves (putBuffered ops bytes) fp := by
  have stored {after : Stream δ} (ok : after.file.Consistent)
      (room : after.file.offset < after.file.bufferSize)
      (isMode : after.file.bufmode = fp.file.bufmode) :
      after.file.offset < after.file.bufferSize ∧ ∀ buf ungetBytes,
        after.file.AllocatedAs buf ungetBytes → bytes.take (after.file.chunkOf bytes).1 ≠ [] →
        after.file.offset + (bytes.take (after.file.chunkOf bytes).1).length ≤
          after.file.bufferSize →
        (after.file.store buf ungetBytes (bytes.take (after.file.chunkOf bytes).1)).Consistent := by
    refine ⟨room, fun buf ungetBytes alloc _ fits => ?_⟩
    generalize bytes.take (after.file.chunkOf bytes).1 = chunk at fits ⊢
    have size := alloc.length ok.sized
    have kept : (overwrite buf after.file.offset chunk).length = buf.length := by
      rw [length_overwrite (by omega)]
      omega
    have copied := ok.allocated alloc kept
    rw [store, markDirty]
    have dirty := copied.dirty
    have limit := copied.limit
    dsimp only at dirty limit
    refine { copied with
      offset := le_max_left _ _
      limit := ?_
      ioOffset := copied.ioOffset.trans (le_max_right _ _)
      dirty := .inr ?_
      filled := (absurd · (Option.some_ne_none _))
      buffered := ?_ }
    · dsimp only
      omega
    · dsimp only
      split_ifs <;> omega
    · rintro (unknown | unbuffered)
      · exact absurd (isMode ▸ unknown) known
      · exact absurd (.inr (isMode ▸ unbuffered)) buffered
  refine ends_putBuffered ops ne (ends_ite.mpr ⟨fun isFull => ?_, fun hasRoom => ?_⟩)
  · have atLimit := le_antisymm holds.offset (holds.limit.trans isFull.ge)
    refine safe_restart moves holds atLimit fun after ok isStart _ isMode => ?_
    exact stored ok (isStart.trans_lt ok.room) isMode
  · exact stored holds (lt_of_le_of_ne (holds.offset.trans holds.limit) hasRoom) rfl

theorem safe_write {bytes : List UInt8} (ne : bytes ≠ []) : Preserves (write ops bytes) fp := by
  have taken : Preserves (takeChunk ops bytes) fp := by
    refine (ends_bind _ _).mpr ((ends_ensure (mt List.length_eq_zero_iff.mp ne)).mpr ?_)
    refine (ends_bind _ _).mpr (safe_initBufmode moves holds fun mode dev known moded => ?_)
    refine ends_ite.mpr ⟨fun unbuffered => ?_, fun buffered => ?_⟩
    · simp only [writeUnbuffered, ends_bind, ends_getFile]
      refine (ends_ensure (moded.buffered (unbuffered.imp_left nofun))).mpr ?_
      refine safe_device ?_ ?_
      · exact moded
      · exact (ends_trivial _ _).imp fun _ _ _ => moded
    · exact safe_putBuffered moves moded ne known buffered
  refine (ends_bind _ _).mpr (taken.imp fun _ after ok => ends_ite.mpr ?_)
  refine ⟨fun _ => ?_, fun _ => ok⟩
  exact (ends_bind _ _).mpr ((safe_writeBack moves ok).imp fun _ _ ⟨kept, _⟩ => kept.1)

/-! ### The other functions -/

omit moves in
theorem safe_unget (byte : UInt8) : Preserves (unget ops byte) fp := by
  refine (ends_bind _ _).mpr (ends_ensureAllocation ops fun buf ungetBytes alloc => ?_)
  have allocated := holds.allocated alloc rfl
  refine ends_ite.mpr ⟨fun _ => allocated, fun fits => ?_⟩
  exact { allocated with unget := not_lt.mp fits }

omit moves in
theorem Consistent.purged : ({ fp.file with
      offset := 0
      ioOffset := 0
      validLimit := 0
      dirtyEnd := fp.file.dirtyBegin
      ungetBytes := [] } : AbstractFile).Consistent :=
  { holds with
    offset := le_rfl
    limit := Nat.zero_le _
    ioOffset := le_rfl
    dirty := .inl rfl
    unget := Nat.zero_le _
    filled := fun _ => rfl
    buffered := fun _ => rfl }

theorem safe_flush : Preserves (flush ops) fp := by
  have dirty : Preserves (flushDirty ops) fp :=
    ends_ite.mpr ⟨fun _ => (safe_writeBack moves holds).imp fun _ _ ⟨kept, _⟩ => kept.1,
      fun _ => holds⟩
  refine (ends_bind _ _).mpr (dirty.imp fun _ written ok => (ends_bind _ _).mpr ?_)
  have saved : Preserves (savePos ops) written := by
    refine (ends_bind _ _).mpr (safe_initType moves ok fun type dev _ => ?_)
    refine (ends_bind _ _).mpr (safe_initBufmode moves ?_ fun mode dev _ moded => ?_)
    · exact { ok with }
    refine ends_ite.mpr ⟨fun _ => ?_, fun _ => moded⟩
    refine (ends_bind _ _).mpr ((ends_attempt _).mpr ((ends_trivial _ _).mono ?_ ?_))
    · exact fun _ _ _ => { moded with }
    · exact fun code _ _ => ends_ite.mpr ⟨fun _ => { moded with }, fun _ =>
        ⟨⟨code, rfl⟩, { moded with }⟩⟩
  have finished {after : Stream δ} (ok : after.file.Consistent) :
      Preserves (io ops.postFlush) after :=
    (ends_io _).mpr ((ends_trivial _ _).mono (fun _ _ _ => ok) fun code _ _ => ⟨⟨code, rfl⟩, ok⟩)
  exact saved.imp fun _ _ ok => ends_ite.mpr ⟨fun _ => finished ok,
    fun _ => (ends_bind _ _).mpr (finished ok.purged)⟩

omit moves in
theorem safe_tell : Preserves (tell ops) fp :=
  (ends_bind _ _).mpr ((ends_io _).mpr ((ends_trivial _ _).mono (fun _ _ _ => holds)
    fun code _ _ => ⟨⟨code, rfl⟩, holds⟩))

theorem safe_seek (offset : Int) {whence : Whence} (valid : whence ≠ .other) :
    Preserves (seek ops offset whence) fp := by
  refine (ends_bind _ _).mpr ((safe_writeBack moves holds).imp fun _ after ⟨kept, _⟩ => ?_)
  have isWhence : whence = .seekCur ∨ whence = .seekSet ∨ whence = .seekEnd := by
    cases whence <;> simp_all
  refine (ends_bind _ _).mpr ((ends_ensure isWhence).mpr ?_)
  simp only [ends_bind, ends_getFile]
  refine (ends_ioOr _ _).mpr ((ends_trivial _ _).mono (fun _ dev _ => ?_) fun code dev _ => ?_)
  · exact { kept.1.purged with }
  · exact ends_ite.mpr ⟨fun _ => ⟨⟨code, rfl⟩, { kept.1 with }⟩, fun _ => ⟨⟨code, rfl⟩, kept.1⟩⟩

/-! ### Runs of calls -/

omit moves holds

inductive BufferCall where
  | stream (call : StreamCall)
  | unget (byte : UInt8)
  | purge
  | updateBufmode (bufmode : BufferMode)
  deriving DecidableEq

/-- The buffer mode changes only while nothing is dirty. -/
def BufferCall.Valid (file : AbstractFile) : BufferCall → Prop
  | .stream call => call.Valid
  | .updateBufmode _ => file.dirtyBegin = file.dirtyEnd
  | _ => True

instance (file : AbstractFile) : DecidablePred (BufferCall.Valid file)
  | .stream call => inferInstanceAs (Decidable call.Valid)
  | .updateBufmode _ => inferInstanceAs (Decidable (_ = _))
  | .unget _ | .purge => .isTrue trivial

def BufferCall.execute (ops : FileOps δ) : BufferCall → FileM δ Value
  | .stream call => call.execute ops
  | .unget byte => (fun _ => .done) <$> AbstractFile.unget ops byte
  | .purge => (fun _ => .done) <$> AbstractFile.purge
  | .updateBufmode bufmode => (fun _ => .done) <$> AbstractFile.updateBufmode bufmode

/-- The state has the result of the last call. -/
def bufferSystem (ops : FileOps δ) :
    TransitionSystem (Except Fault Value × Stream δ) BufferCall where
  initial s := s.1 = .ok .done ∧ ∃ type bufmode, s.2.file = { new with type, bufmode }
  step s call :=
    if call.Valid s.2.file then some (outcome (call.execute ops s.2)) else none

include moves holds in
theorem safe_execute {call : BufferCall} (valid : call.Valid fp.file) :
    Preserves (call.execute ops) fp := by
  cases call with
  | stream call =>
    cases call with
    | read maxSize => exact (ends_map _ _).mpr (safe_read moves holds (Nat.ne_of_gt valid))
    | write bytes => exact (ends_map _ _).mpr (safe_write moves holds valid)
    | seek offset whence => exact (ends_map _ _).mpr (safe_seek moves holds offset valid)
    | flush => exact (ends_map _ _).mpr (safe_flush moves holds)
    | tell => exact (ends_map _ _).mpr (safe_tell holds)
  | unget byte => exact (ends_map _ _).mpr (safe_unget holds byte)
  | purge => exact holds.purged
  | updateBufmode bufmode =>
    refine (ends_map _ _).mpr ?_
    simp only [AbstractFile.updateBufmode, ends_bind, ends_getFile]
    exact (ends_ensure valid).mpr { holds with buffered := fun _ => valid }

def Sound (s : Except Fault Value × Stream δ) : Prop :=
  s.2.file.Consistent ∧ ∀ fault, s.1 = .error fault → ∃ code, fault = .errno code

/-- After any calls the indices are in order, and no check of a function has failed. -/
theorem indexed_of_reachable (moves : Transfers ops) {s : Except Fault Value × Stream δ}
    (reach : (bufferSystem ops).Reachable s) :
    s.2.file.Indexed ∧ ∀ fault, s.1 = .error fault → ∃ code, fault = .errno code := by
  have sound : Sound s := by
    refine reach.invariant ?_ ?_
    · rintro ⟨_, _, dev⟩ ⟨rfl, type, bufmode, rfl⟩
      exact ⟨new_consistent type bufmode, nofun⟩
    rintro s call next ⟨ok, _⟩ _ steps
    simp only [bufferSystem] at steps
    split_ifs at steps with valid
    have ends := safe_execute moves ok valid
    unfold Preserves Safe Ends at ends
    cases ran : call.execute ops s.2 with
    | ok value after =>
      rw [ran] at ends steps
      cases steps
      exact ⟨ends, nofun⟩
    | error fault after =>
      rw [ran] at ends steps
      cases steps
      exact ⟨ends.2, fun _ isFault => Except.error.inj isFault ▸ ends.1⟩
  exact ⟨sound.1.toIndexed, sound.2⟩

def brokenPipe : FileOps Unit where
  determineType := return .pipeLike
  determineBufmode := return .fullBuffer
  ioRead _ := return []
  ioWrite _ := throw .enospc
  ioSeek _ _ := throw .espipe
  postFlush := return
  allocate := zeroed

theorem indexed_of_reachable_broken :
    ∃ s, (bufferSystem brokenPipe).Reachable s ∧ s.1 = .error (.errno .enospc) ∧
      s.2.file.dirtyBegin < s.2.file.dirtyEnd ∧ s.2.file.Indexed := by
  have observed : ∃ s ∈ (bufferSystem brokenPipe).run (fun _ _ => True)
      (.ok .done, ⟨new, ()⟩) [.unget 98, .stream (.write [97, 10]), .stream .flush],
      s.1 = .error (.errno .enospc) ∧ s.2.file.dirtyBegin < s.2.file.dirtyEnd := by
    decide +kernel
  obtain ⟨s, reach, failed, isDirty⟩ := TransitionSystem.exists_reachable observed
    ⟨rfl, .unknown, .unknown, rfl⟩
  have moves : Transfers brokenPipe :=
    { read _ _ _ := Nat.zero_le _, write _ _ _ := trivial, type _ := nofun, bufmode _ := nofun }
  exact ⟨s, reach, failed, isDirty, (indexed_of_reachable moves reach).1⟩

end Mlibc.AbstractFile
