import Mlibc.AbstractFileMirror

/-! # Reading from a stream -/

namespace Mlibc.AbstractFile

open List ByteFile

variable {δ : Type}

def Represents (view : δ → ByteFile UInt8) (direct : DirectFile) (fp : Stream δ) : Prop :=
  ∃ base, Mirrors view base direct fp

def resume (file : AbstractFile) (direct : DirectFile) : DirectFile :=
  { direct with position := direct.position - file.offset + file.settled.ioOffset }

def beforeRead (file : AbstractFile) (direct : DirectFile) : DirectFile :=
  if file.offset = file.validLimit then file.resume direct else direct

def beforeWrite (file : AbstractFile) (direct : DirectFile) : DirectFile :=
  if file.offset = file.bufferSize then file.resume direct else direct

def DirectFile.afterRead (direct : DirectFile) (bytes : List UInt8) : DirectFile :=
  { direct with
    position := direct.position + bytes.length
    eof := direct.eof || bytes.isEmpty }

def DirectFile.afterWrite (direct : DirectFile) (bytes : List UInt8) : DirectFile :=
  { direct.toByteFile.write bytes with eof := direct.eof }

theorem eof_beforeRead (file : AbstractFile) (direct : DirectFile) :
    (file.beforeRead direct).eof = direct.eof := by
  unfold beforeRead
  split_ifs <;> rfl

theorem contents_beforeRead (file : AbstractFile) (direct : DirectFile) :
    (file.beforeRead direct).contents = direct.contents := by
  unfold beforeRead
  split_ifs <;> rfl

section Reading

variable {ops : FileOps δ} {view : δ → ByteFile UInt8} {base : Nat} {direct : DirectFile}
  {fp : Stream δ}

theorem Mirrors.resume_eq (mirrors : Mirrors view base direct fp) : fp.file.resume direct =
      { direct with position := base + fp.file.settled.ioOffset } := by
  have same : direct.position - fp.file.offset = base := by
    have position := mirrors.position
    omega
  rw [resume, same]

theorem Mirrors.filled {file : AbstractFile} {dev after : δ}
    (emptied : Mirrors view direct.position direct ⟨file, dev⟩)
    (clean : file.dirtyBegin = file.dirtyEnd) (atStart : file.offset = 0)
    {buf bytes : List UInt8} {count : Nat} (size : buf.length = file.bufferSize)
    (isPeek : bytes = direct.toByteFile.peek count) (fits : bytes.length ≤ file.bufferSize)
    (viewed : view after = direct.toByteFile.advance bytes.length) :
    Mirrors view direct.position direct ⟨{ file with
        buffer := some (overwrite buf 0 bytes)
        ungetBytes := []
        ioOffset := bytes.length
        validLimit := bytes.length }, after⟩ := by
  have start : 0 ≤ buf.length := Nat.zero_le _
  refine { emptied with
    devicePosition := ?_, offset_le := ?_, limit_le := ?_, sized := ?_, contents := .inl ⟨clean,
    ?_⟩,
    valid := ?_, unget := rfl }
  · rw [viewed]
    rfl
  · show file.offset ≤ bytes.length
    omega
  · show bytes.length ≤ (overwrite buf 0 bytes).length
    rw [length_overwrite start]
    omega
  · rintro other ⟨rfl⟩
    show (overwrite buf 0 bytes).length = file.bufferSize
    rw [length_overwrite start]
    omega
  · rw [viewed]
    rfl
  · intro index isBelow
    have isBelow' : index < bytes.length := isBelow
    show direct.contents[direct.position + index]? = (overwrite buf 0 bytes)[index]?
    rw [getElem?_overwrite start, if_neg (Nat.not_lt_zero index), if_pos (by omega), Nat.sub_zero]
    have inPeek := getElem?_peek direct.toByteFile count index
    rw [← isPeek] at inPeek
    have short : bytes.length ≤ count := by
      rw [isPeek, peek, length_take]
      omega
    rw [inPeek, if_pos (by omega)]

variable (isFile : IsByteFile ops view) (mirrors : Mirrors view base direct fp)
include isFile mirrors

theorem writeBack_reset_mirrors {returns : Unit → Stream δ → Prop} {fails : Fault → Stream δ → Prop}
    (holds : ∀ dev, Mirrors view (fp.file.resume direct).position (fp.file.resume direct)
        ⟨{ fp.file.settled with offset := 0, ioOffset := 0, validLimit := 0 }, dev⟩ →
      returns () ⟨{ fp.file.settled with offset := 0, ioOffset := 0, validLimit := 0 }, dev⟩) :
    Ends (writeBack ops) fp (fun _ after => Ends (reset ops) after returns fails) fails := by
  refine (writeBack_mirrors isFile mirrors).of_never.imp ?_
  rintro _ ⟨_, writtenDev⟩ ⟨writtenMirrors, rfl⟩
  refine (reset_mirrors isFile writtenMirrors rfl).of_never.imp ?_
  rintro _ ⟨_, dev⟩ ⟨resetMirrors, rfl⟩
  apply holds
  rw [mirrors.resume_eq]
  exact resetMirrors

theorem readAhead_mirrors : Ends (readAhead ops) fp (fun more after => Represents view
          { fp.file.resume direct with eof := direct.eof || !more } after ∧
        (more = true → after.file.offset < after.file.validLimit) ∧
        (more = false → direct.contents.length ≤ (fp.file.resume direct).position)) Never := by
  simp only [readAhead, ends_bind]
  apply writeBack_reset_mirrors isFile mirrors
  intro dev resetMirrors
  apply ends_ensureAllocation
  intro buf ungetBytes alloc
  have size : buf.length = fp.file.bufferSize := alloc.length resetMirrors.sized
  have noUnget : ungetBytes = [] := by
    rcases alloc with ⟨_, same⟩ | ⟨_, _, isEmpty⟩
    · exact same.trans resetMirrors.unget
    · exact isEmpty
  simp only [ends_ioOr]
  have viewDevice : view dev = (fp.file.resume direct).toByteFile :=
    ByteFile.ext (resetMirrors.contents_eq rfl).symm resetMirrors.devicePosition
  refine (isFile.read dev _ resetMirrors.roomy).of_never.imp ?_
  rintro bytes after ⟨count, pos, short, isPeek, viewed⟩
  rw [viewDevice] at isPeek viewed
  refine ends_ite.mpr ⟨fun isEmpty => ?_, fun ne => ?_⟩
  · subst isEmpty
    refine ⟨⟨(fp.file.resume direct).position, { resetMirrors with
      devicePosition := ?_, limit_le := Nat.zero_le _, sized := ?_, contents := .inl ⟨rfl, ?_⟩,
      valid := ?_, unget := noUnget, eof := ?_ }⟩, ?_, ?_⟩
    · rw [viewed]
      rfl
    · rintro other ⟨rfl⟩
      exact size
    · rw [viewed]
      rfl
    · exact fun index isBelow => absurd isBelow (Nat.not_lt_zero index)
    · simp [eofBit]
    · exact fun impossible => by cases impossible
    · intro _
      have length := congrArg length isPeek
      simp only [peek, length_nil, length_take, length_drop] at length
      show (fp.file.resume direct).contents.length ≤ _
      omega
  · have fits : bytes.length ≤ fp.file.bufferSize := by
      have bound : bytes.length ≤ count := by
        rw [isPeek, peek, length_take]
        omega
      exact bound.trans short
    simp only [ends_bind]
    refine (ends_copyToBuffer rfl (by rw [zero_add]; exact fits)).mpr
      ⟨⟨(fp.file.resume direct).position, ?_⟩, fun _ => ?_, ?_⟩
    · have filled := resetMirrors.filled rfl rfl size isPeek fits viewed
      rw [noUnget]
      exact { filled with eof := filled.eof.trans (Bool.or_false _).symm }
    · exact length_pos_iff.mpr ne
    · exact fun impossible => by cases impossible

omit isFile in
theorem Mirrors.segment_eq {count : Nat} (inside : fp.file.offset + count ≤ fp.file.validLimit) :
    segment fp.file.memory fp.file.offset (fp.file.offset + count) =
      direct.toByteFile.peek count := by
  apply ext_getElem?
  intro index
  rw [getElem?_segment, getElem?_peek, Nat.add_sub_cancel_left]
  by_cases isBelow : index < count
  · rw [if_pos isBelow, if_pos isBelow, ← mirrors.valid _ (by omega), mirrors.position, add_assoc]
  · rw [if_neg isBelow, if_neg isBelow]

omit isFile in
theorem takeBuffered_mirrors (available : fp.file.offset < fp.file.validLimit)
    {maxSize : Nat} (pos : 0 < maxSize) :
    Ends (takeBuffered maxSize) fp (fun bytes after => ∃ count, 0 < count ∧ count ≤ maxSize ∧
        bytes = direct.toByteFile.peek count ∧
        Represents view (direct.afterRead bytes) after) Never := by
  have inside := mirrors.limit_le
  have sized := memory_length_le mirrors.sized
  simp only [takeBuffered, ends_bind, ends_getFile, ends_modifyFile, ends_pure]
  refine (ends_ensure available).mpr ((ends_bufferSegment (by omega) (by omega) sized).mpr ?_)
  have within : fp.file.offset + min (fp.file.validLimit - fp.file.offset) maxSize ≤
      fp.file.validLimit := by omega
  have isPeek := mirrors.segment_eq within
  have length := congrArg length isPeek
  rw [length_segment (by omega), Nat.add_sub_cancel_left] at length
  refine ⟨_, by omega, Nat.min_le_right _ _, isPeek, base, ?_⟩
  rw [isPeek]
  refine { mirrors with position := ?_, offset_le := within, contents := ?_, eof := ?_ }
  · show direct.position + _ = base + (fp.file.offset + _)
    rw [← length, mirrors.position, add_assoc]
  · rcases mirrors.contents with clean | ⟨isDirty, before, contents⟩
    · exact .inl clean
    · exact .inr ⟨isDirty, before.trans (Nat.le_add_right _ _), contents⟩
  show fp.file.statusBits.getLsbD 0 = (direct.eof || _)
  have ne : direct.toByteFile.peek (min (fp.file.validLimit - fp.file.offset) maxSize) ≠ [] := by
    rw [← length_pos_iff]
    omega
  rw [mirrors.eof, isEmpty_eq_false_iff.mpr ne, Bool.or_false]

theorem fillBuffer_mirrors : Ends (fillBuffer ops) fp (fun more after => Represents view
          { fp.file.beforeRead direct with eof := direct.eof || !more } after ∧
        (more = true → after.file.offset < after.file.validLimit) ∧
        (more = false → direct.contents.length ≤ (fp.file.beforeRead direct).position))
      Never := by
  refine ends_ite.mpr ⟨fun isEmpty => ?_, fun hasMore => ?_⟩
  · rw [beforeRead, if_pos isEmpty]
    exact readAhead_mirrors isFile mirrors
  rw [beforeRead, if_neg hasMore]
  have before := mirrors.offset_le
  refine ⟨⟨base, { mirrors with eof := ?_ }⟩, fun _ => by omega,
    fun impossible => by cases impossible⟩
  rw [mirrors.eof, Bool.not_true, Bool.or_false]

theorem read_mirrors {maxSize : Nat} (pos : 0 < maxSize) : Ends (read ops maxSize) fp
      (fun bytes after => ∃ count, 0 < count ∧ count ≤ maxSize ∧
        bytes = (fp.file.beforeRead direct).toByteFile.peek count ∧
        Represents view ((fp.file.beforeRead direct).afterRead bytes) after) Never := by
  simp only [read, ends_bind]
  refine (ends_ensure (Nat.pos_iff_ne_zero.mp pos)).mpr ?_
  refine (initBufmode_mirrors isFile mirrors).imp ?_
  rintro _ ⟨_, dev⟩ ⟨modeMirrors, bufmode, rfl⟩
  have noUnget : fp.file.ungetBytes = [] := mirrors.unget
  simp only [takeUnget, ends_bind, ends_getFile, ends_modifyFile, ends_pure, noUnget,
    take_nil, drop_nil, length_nil, Nat.sub_zero]
  rw [if_neg (Nat.pos_iff_ne_zero.mp pos), ends_bind, ends_getFile]
  have buffered : ¬ Unbuffered { fp.file with bufmode, ungetBytes := [] } := by
    rintro (disabled | noBuffer)
    · cases disabled
    · exact modeMirrors.bufmode noBuffer
  rw [if_neg buffered, ends_bind, ends_modifyFile, ends_bind]
  have ready : Mirrors view base direct
      ⟨{ fp.file with bufmode, ungetBytes := [], ioMode := 0 }, dev⟩ :=
    { modeMirrors with unget := rfl }
  have sameEof := eof_beforeRead fp.file direct
  refine (fillBuffer_mirrors isFile ready).of_never.imp ?_
  rintro more after ⟨⟨newBase, filled⟩, some, none⟩
  cases more with
  | true =>
    rw [if_pos rfl, ends_bind]
    refine (takeBuffered_mirrors filled (some rfl) pos).mono ?_
      (fun _ _ impossible => impossible.elim)
    rintro bytes final ⟨count, isPositive, short, isPeek, rep⟩
    rw [Bool.not_true, Bool.or_false, ← sameEof] at rep
    exact ⟨count, isPositive, short, isPeek, rep⟩
  | false =>
    have atEnd : direct.contents.length ≤ (fp.file.beforeRead direct).position := none rfl
    rw [← contents_beforeRead fp.file direct] at atEnd
    refine ⟨1, Nat.one_pos, pos, ?_, newBase, ?_⟩
    · rw [peek, drop_eq_nil_of_le atEnd, take_nil]
    rw [Bool.not_false, Bool.or_true] at filled
    have read : (fp.file.beforeRead direct).afterRead [] =
        { fp.file.beforeRead direct with eof := true } := by
      simp [DirectFile.afterRead]
    rw [read]
    exact filled

end Reading

end Mlibc.AbstractFile
