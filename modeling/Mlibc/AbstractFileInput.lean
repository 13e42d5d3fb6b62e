import Mlibc.AbstractFileMirror

/-!
# Reading from any device

A device answers each `io_read` with an error, the end of the file or some bytes of its stream.
-/

namespace Mlibc.AbstractFile

open List

/-- A device with the answers that it is going to give: an error, or a limit on the bytes.  Behind
the script there is no limit. -/
structure InputDevice where
  type : StreamType
  bufmode : BufferMode
  answers : List (Except Errno Nat)
  stream : List UInt8
  type_known : type ≠ .unknown
  bufmode_known : bufmode ≠ .unknown

namespace InputDevice

def limit (dev : InputDevice) (maxSize : Nat) : Nat :=
  match dev.answers with
  | .ok count :: _ => min count maxSize
  | _ => maxSize

def Fails (dev : InputDevice) : Prop := ∃ code, dev.answers.head? = some (.error code)

def Ended (dev : InputDevice) : Prop :=
  dev.stream = [] ∨ dev.answers.head? = some (.ok 0)

instance (dev : InputDevice) : Decidable dev.Fails :=
  match equation : dev.answers.head? with
  | some (.error code) => isTrue ⟨code, equation⟩
  | some (.ok _) => isFalse (by rintro ⟨code, isError⟩; rw [equation] at isError; cases isError)
  | none => isFalse (by rintro ⟨code, isError⟩; rw [equation] at isError; cases isError)

instance (dev : InputDevice) : Decidable dev.Ended := inferInstanceAs (Decidable (_ ∨ _))

def ioRead (maxSize : Nat) : EStateM Errno InputDevice (List UInt8) := fun dev =>
  match dev.answers with
  | .error code :: answers => .error code { dev with answers }
  | answers =>
    .ok (dev.stream.take (dev.limit maxSize))
      { dev with
        answers := answers.drop 1
        stream := dev.stream.drop (dev.limit maxSize) }

end InputDevice

def inputOps (base : FileOps InputDevice) : FileOps InputDevice :=
  { base with
    determineType := fun dev => .ok dev.type dev
    determineBufmode := fun dev => .ok dev.bufmode dev
    ioRead := InputDevice.ioRead }

theorem ioRead_ends (dev : InputDevice) {maxSize : Nat} (pos : 0 < maxSize) :
    Ends (InputDevice.ioRead maxSize) dev
      (fun bytes after => ¬dev.Fails ∧ bytes.length ≤ maxSize ∧
        bytes ++ after.stream = dev.stream ∧ (bytes = [] ↔ dev.Ended) ∧
        after.bufmode = dev.bufmode)
      (fun _ after => dev.Fails ∧ after.stream = dev.stream ∧
        after.bufmode = dev.bufmode) := by
  have delivered (count : Nat) : dev.stream.take count ++ dev.stream.drop count =
      dev.stream := take_append_drop count dev.stream
  have atMost : dev.limit maxSize ≤ maxSize := by
    unfold InputDevice.limit
    split <;> omega
  have short : (dev.stream.take (dev.limit maxSize)).length ≤ maxSize := by
    rw [length_take]
    omega
  have empty_iff : dev.stream.take (dev.limit maxSize) = [] ↔
      dev.stream = [] ∨ dev.limit maxSize = 0 := by
    rw [take_eq_nil_iff, or_comm]
  unfold Ends InputDevice.ioRead
  match isAnswers : dev.answers with
  | .error code :: answers =>
    have fails : dev.Fails := ⟨code, by rw [isAnswers]; rfl⟩
    exact ⟨fails, rfl, rfl⟩
  | [] =>
    refine ⟨by simp [InputDevice.Fails, isAnswers], short, delivered _, ?_, rfl⟩
    rw [InputDevice.Ended, InputDevice.limit, isAnswers]
    simp
    omega
  | .ok count :: answers =>
    refine ⟨by simp [InputDevice.Fails, isAnswers], short, delivered _, ?_, rfl⟩
    have zero_iff : min count maxSize = 0 ↔ count = 0 := by omega
    rw [empty_iff]
    simp [InputDevice.Ended, InputDevice.limit, isAnswers, zero_iff]

def mode (fp : Stream InputDevice) : BufferMode :=
  if fp.file.bufmode = .unknown then fp.device.bufmode else fp.file.bufmode

def remaining (fp : Stream InputDevice) : List UInt8 :=
  fp.file.ungetBytes ++
    (segment fp.file.memory fp.file.offset fp.file.validLimit ++ fp.device.stream)

/-- Nothing has been written, and the data of the stream fit together. -/
structure Clean (fp : Stream InputDevice) : Prop where
  notDirty : fp.file.dirtyBegin = fp.file.dirtyEnd
  offset_le : fp.file.offset ≤ fp.file.validLimit
  limit_le : fp.file.validLimit ≤ fp.file.memory.length
  sized : ∀ buf ∈ fp.file.buffer, buf.length = fp.file.bufferSize
  roomy : 0 < fp.file.bufferSize
  unget_le : fp.file.ungetBytes.length ≤ ungetBufferSize
  allocated : fp.file.ungetBytes ≠ [] → fp.file.buffer ≠ none
  unbuffered : mode fp = .noBuffer → fp.file.offset = fp.file.validLimit

section Rules

variable {base : FileOps InputDevice} {fp : Stream InputDevice}
  {returns : Unit → Stream InputDevice → Prop} {fails : Fault → Stream InputDevice → Prop}

theorem mode_known (fp : Stream InputDevice) : mode fp ≠ .unknown := by
  unfold mode
  split_ifs with isUnknown
  · exact fp.device.bufmode_known
  · exact isUnknown

theorem ends_initBufmode_input
    (holds : returns () ⟨{ fp.file with bufmode := mode fp }, fp.device⟩) :
    Ends (initBufmode (inputOps base)) fp returns fails := by
  apply ends_initBufmode
  · intro known
    rw [mode, if_neg known] at holds
    exact holds
  · intro isUnknown
    rw [mode, if_pos isUnknown] at holds
    exact ⟨fp.device.bufmode_known, holds⟩

theorem ends_writeBack_reset (clean : Clean fp)
    (isEmpty : fp.file.offset = fp.file.validLimit)
    (holds : ∀ type, returns () ⟨{ fp.file with
      type, offset := 0, ioOffset := 0, validLimit := 0 }, fp.device⟩) :
    Ends (writeBack (inputOps base)) fp
      (fun _ after => Ends (reset (inputOps base)) after returns fails) fails := by
  have typed (file : AbstractFile) {continues : Unit → Stream InputDevice → Prop}
      (goesOn : ∀ type, type ≠ .unknown → continues () ⟨{ file with type }, fp.device⟩) :
      Ends (initType (inputOps base)) ⟨file, fp.device⟩ continues fails := by
    apply ends_initType
    · exact fun known => goesOn file.type known
    · exact fun _ => ⟨fp.device.type_known, goesOn _ fp.device.type_known⟩
  simp only [writeBack, ends_bind, ends_getFile]
  apply typed
  intro type _
  rw [if_pos clean.notDirty]
  simp only [reset, ends_bind]
  apply typed
  intro type _
  exact (ends_ensure (fun _ => isEmpty)).mpr ((ends_ensure clean.notDirty).mpr (holds type))

end Rules

section Reading

variable {base : FileOps InputDevice} {fp : Stream InputDevice}

theorem takeBuffered_input (clean : Clean fp) (noUnget : fp.file.ungetBytes = [])
    (available : fp.file.offset < fp.file.validLimit) {maxSize : Nat}
    (pos : 0 < maxSize) :
    Ends (takeBuffered maxSize) fp
      (fun bytes after => Clean after ∧ bytes ≠ [] ∧ after.file.ungetBytes = [] ∧
        bytes ++ remaining after = remaining fp) Never := by
  have inside := clean.limit_le
  have sized := memory_length_le clean.sized
  simp only [takeBuffered, ends_bind]
  refine (ends_ensure available).mpr ((ends_bufferSegment (by omega) (by omega) sized).mpr ?_)
  have within : fp.file.offset + min (fp.file.validLimit - fp.file.offset) maxSize ≤
      fp.file.validLimit := by omega
  refine ⟨{ clean with offset_le := within, unbuffered := ?_ }, ?_, noUnget, ?_⟩
  · intro isUnbuffered
    have isEmpty := clean.unbuffered isUnbuffered
    omega
  · rw [← length_pos_iff, length_segment (by omega)]
    omega
  · unfold remaining
    rw [noUnget, nil_append, nil_append, ← append_assoc]
    congr 1
    exact segment_append _ (Nat.le_add_right _ _) within

theorem remaining_of_empty (noUnget : fp.file.ungetBytes = [])
    (isEmpty : fp.file.offset = fp.file.validLimit) :
    remaining fp = fp.device.stream := by
  rw [remaining, noUnget, isEmpty, segment_self]
  rfl

theorem readAhead_input (clean : Clean fp) (noUnget : fp.file.ungetBytes = [])
    (isEmpty : fp.file.offset = fp.file.validLimit) (buffered : mode fp ≠ .noBuffer) :
    Ends (readAhead (inputOps base)) fp
      (fun more after => Clean after ∧ after.file.ungetBytes = [] ∧
        remaining after = remaining fp ∧ ¬fp.device.Fails ∧
        (more = false ↔ fp.device.Ended) ∧
        (more = true → after.file.offset < after.file.validLimit))
      (fun fault after => (∃ code, fault = .errno code) ∧ Clean after ∧
        after.file.ungetBytes = [] ∧ remaining after = remaining fp ∧
        fp.device.Fails) := by
  have before : remaining fp = fp.device.stream := remaining_of_empty noUnget isEmpty
  simp only [readAhead, ends_bind]
  apply ends_writeBack_reset clean isEmpty
  intro type
  apply ends_ensureAllocation
  intro buf ungetBytes alloc
  have size : buf.length = fp.file.bufferSize := alloc.length clean.sized
  have stillNoUnget : ungetBytes = [] := by
    obtain ⟨_, same⟩ | ⟨_, _, empty⟩ := alloc
    · exact same.trans noUnget
    · exact empty
  subst stillNoUnget
  simp only [ends_getFile, ends_ioOr, ends_setStatus]
  have emptied (dev : InputDevice) (statusBits : BitVec 32) :
      Clean ⟨{ fp.file with
        type, offset := 0, ioOffset := 0, validLimit := 0, buffer := some buf,
        ungetBytes := [], statusBits }, dev⟩ := by
    refine
      { notDirty := clean.notDirty
        offset_le := le_rfl
        limit_le := Nat.zero_le _
        sized := ?_
        roomy := clean.roomy
        unget_le := Nat.zero_le _
        allocated := fun ne => absurd rfl ne
        unbuffered := fun _ => rfl }
    rintro other ⟨rfl⟩
    exact size
  refine (ioRead_ends fp.device clean.roomy).mono ?_ ?_
  · rintro bytes dev ⟨notFails, short, delivered, ended, sameMode⟩
    refine ends_ite.mpr ⟨?_, ?_⟩
    · intro empty
      simp only [ends_bind, ends_setStatus, ends_pure]
      have isEnded := ended.mp empty
      refine ⟨emptied dev _, trivial, ?_, notFails, iff_of_true trivial isEnded, by simp⟩
      rw [before, ← delivered, empty]
      exact remaining_of_empty rfl rfl
    intro ne
    simp only [ends_bind]
    refine (ends_copyToBuffer rfl (by rw [zero_add]; exact short)).mpr ?_
    have length : (overwrite buf 0 bytes).length = fp.file.bufferSize := by
      rw [length_overwrite (Nat.zero_le _)]
      omega
    have available : 0 < bytes.length := length_pos_iff.mpr ne
    refine ⟨{ emptied dev fp.file.statusBits with
      offset_le := Nat.zero_le _, limit_le := ?_, sized := ?_, unbuffered := ?_,
      allocated := fun ne => absurd rfl ne },
      rfl, ?_, notFails, ?_, fun _ => available⟩
    · exact short.trans length.symm.le
    · rintro other ⟨rfl⟩
      exact length
    · intro isUnbuffered
      have sameModes : mode fp = .noBuffer := by
        rw [← isUnbuffered, mode, mode, sameMode]
      exact absurd sameModes buffered
    · have filled : segment (overwrite buf 0 bytes) 0 (0 + bytes.length) =
          segment buf 0 0 ++ bytes := segment_overwrite (Nat.zero_le _) le_rfl
      rw [segment_self, nil_append, zero_add] at filled
      rw [before, ← delivered]
      change segment (overwrite buf 0 bytes) 0 bytes.length ++ dev.stream = _
      rw [filled]
    · exact iff_of_false (by decide) (fun isEnded => ne (ended.mpr isEnded))
  · rintro code dev ⟨isFailing, same, sameMode⟩
    refine ⟨⟨code, rfl⟩, emptied dev _, trivial, ?_, isFailing⟩
    rw [before, ← same]
    exact remaining_of_empty rfl rfl

theorem fillBuffer_input (clean : Clean fp) (noUnget : fp.file.ungetBytes = [])
    (buffered : mode fp ≠ .noBuffer) :
    Ends (fillBuffer (inputOps base)) fp
      (fun more after => Clean after ∧ after.file.ungetBytes = [] ∧
        remaining after = remaining fp ∧
        (fp.file.offset = fp.file.validLimit → ¬fp.device.Fails) ∧
        (more = false ↔ fp.file.offset = fp.file.validLimit ∧ fp.device.Ended) ∧
        (more = true → after.file.offset < after.file.validLimit))
      (fun fault after => (∃ code, fault = .errno code) ∧ Clean after ∧
        after.file.ungetBytes = [] ∧ remaining after = remaining fp ∧
        fp.file.offset = fp.file.validLimit ∧ fp.device.Fails) := by
  refine ends_ite.mpr ⟨?_, ?_⟩
  · intro isEmpty
    refine (readAhead_input clean noUnget isEmpty buffered).mono ?_ ?_
    · rintro more after ⟨isClean, none, same, notFails, ended, available⟩
      exact ⟨isClean, none, same, fun _ => notFails, by simp [ended, isEmpty], available⟩
    · rintro fault after ⟨isErrno, isClean, none, same, isFailing⟩
      exact ⟨isErrno, isClean, none, same, isEmpty, isFailing⟩
  · intro hasMore
    have before := clean.offset_le
    refine ⟨clean, noUnget, rfl, fun isEmpty => absurd isEmpty hasMore, ?_, fun _ => by omega⟩
    exact iff_of_false (by decide) (fun both => hasMore both.1)

end Reading

end Mlibc.AbstractFile
