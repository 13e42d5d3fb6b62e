import Mlibc.AbstractFileRuns

/-!
# Relative positions

`tell` takes the pushed-back bytes off its answer, a relative `seek` starts behind them.
-/

namespace Mlibc.AbstractFile

open List

variable {δ : Type} {ops : FileOps δ} {view : δ → ByteFile UInt8} {base : Int} {offset : Nat}
  {fp : Stream δ}

/-- The stream is on a file, and its buffer starts at the given place of the file. -/
structure Placed (view : δ → ByteFile UInt8) (base : Int) (offset : Nat) (fp : Stream δ) :
    Prop where
  type : fp.file.type ≠ .pipeLike
  sized : ∀ buf ∈ fp.file.buffer, buf.length = fp.file.bufferSize
  roomy : 0 < fp.file.bufferSize
  device : ((view fp.device).position : Int) = base + fp.file.ioOffset
  offset : fp.file.offset = offset

/-- Nothing is in the buffer, and nothing is pushed back. -/
def Emptied (file : AbstractFile) : Prop :=
  file.ioOffset = 0 ∧ file.validLimit = 0 ∧ file.dirtyBegin = file.dirtyEnd ∧ file.ungetBytes = []

theorem position_of_seek {file after : ByteFile UInt8} {dist : Int}
    (seeks : file.seek dist .seekCur = some after) :
    (after.position : Int) = file.position + dist := by
  cases target : (file.position : Int) + dist with
  | ofNat position =>
    rw [ByteFile.seek_eq_some target] at seeks
    rw [← Option.some.inj seeks]
    rfl
  | negSucc position => simp [ByteFile.seek, target] at seeks

section Functions

variable (isFile : IsByteFile ops view) (placed : Placed view base offset fp)
include isFile placed

theorem seekToDirty_placed :
    Ends (seekToDirty ops) fp (fun _ after => Placed view base offset after) fun _ _ => True := by
  simp only [seekToDirty, ends_bind, ends_getFile]
  refine ends_ite.mpr ⟨fun _ => ends_ite.mpr ⟨fun _ => ?_, fun _ => placed⟩, fun _ => ?_⟩
  · simp only [ends_bind, ends_io, ends_modifyFile]
    refine (isFile.seek fp.device _ .seekCur).mono ?_ fun _ _ _ => trivial
    rintro _ dev ⟨seeks, _⟩
    have moved := position_of_seek seeks
    have before := placed.device
    refine { placed with device := ?_ }
    show ((view dev).position : Int) = base + fp.file.dirtyBegin
    omega
  · rw [ensure, if_neg placed.type]
    trivial

theorem writeBackLoop_placed (fuel : Nat) :
    Ends (writeBackLoop ops fuel) fp (fun _ after => Placed view base offset after)
      fun _ _ => True := by
  induction fuel generalizing fp with
  | zero => trivial
  | succ fuel ih =>
    refine ends_ite.mpr ⟨fun remains => ?_, fun _ => placed⟩
    simp only [ends_bind, bufferSegment, ends_getFile]
    cases alloc : fp.file.buffer with
    | none => trivial
    | some buf =>
      refine ends_ite.mpr ⟨fun inside => ?_, fun _ => trivial⟩
      have length : (segment buf fp.file.ioOffset fp.file.dirtyEnd).length =
          fp.file.dirtyEnd - fp.file.ioOffset :=
        length_segment (by rwa [placed.sized buf alloc])
      have ne : segment buf fp.file.ioOffset fp.file.dirtyEnd ≠ [] :=
        length_pos_iff.mp (by omega)
      simp only [ends_pure, ends_ioOr]
      refine (isFile.write fp.device _ ne).mono ?_ fun _ _ never => never.elim
      rintro ioSize dev ⟨pos, short, viewed⟩
      refine (ends_ensure pos).mpr (ih { placed with device := ?_ })
      have before := placed.device
      show ((view dev).position : Int) = base + (fp.file.ioOffset + ioSize : Nat)
      rw [viewed, ByteFile.write, length_take_of_le short]
      dsimp only
      omega

theorem writeBack_placed : Ends (writeBack ops) fp (fun _ after => Placed view base offset after)
      fun _ _ => True := by
  have typed : Ends (initType ops) fp (fun _ after => Placed view base offset after)
      fun _ _ => True := by
    refine ends_initType ops (fun _ => placed) fun _ => ?_
    refine (isFile.type fp.device).mono ?_ fun _ _ _ => trivial
    rintro _ dev ⟨rfl, same⟩
    exact ⟨by simp, { placed with type := by simp, device := by rw [same]; exact placed.device }⟩
  simp only [writeBack, ends_bind]
  refine typed.imp fun _ after isPlaced => ends_ite.mpr ⟨fun _ => isPlaced, fun _ => ?_⟩
  rw [ends_bind]
  refine (seekToDirty_placed isFile isPlaced).imp fun _ after atDirty => ?_
  exact writeBackLoop_placed isFile atDirty _

/-- A `seek` that succeeds moves from the place in the buffer, whatever was pushed back. -/
theorem seek_placed (dist : Int) : Ends (seek ops dist .seekCur) fp
      (fun _ after => Placed view (base + offset + dist) 0 after ∧ after.file.Emptied)
      fun _ _ => True := by
  simp only [seek, ends_bind]
  refine (writeBack_placed isFile placed).imp fun _ after written => ?_
  refine (ends_ensure (.inl rfl)).mpr ?_
  simp only [ends_getFile, ends_ioOr]
  refine (isFile.seek after.device _ .seekCur).mono ?_ ?_
  · rintro _ dev ⟨seeks, _⟩
    have moved := position_of_seek seeks
    have before := written.device
    have place := written.offset
    refine ⟨{ written with device := ?_, offset := rfl }, rfl, rfl, rfl, rfl⟩
    show ((view dev).position : Int) = base + offset + dist + (0 : Nat)
    rw [moved, seekOffset, if_pos rfl]
    omega
  · intro _ _ _
    exact ends_ite.mpr ⟨fun _ => trivial, fun _ => trivial⟩

theorem tell_placed : Ends (tell ops) fp
      (fun place after => place = base + offset - fp.file.ungetBytes.length ∧
        Placed view base offset after) Never := by
  simp only [tell, ends_bind, ends_io]
  refine (isFile.seek_to (add_zero _)).of_never.imp ?_
  rintro _ dev ⟨viewed, rfl⟩
  have before := placed.device
  have place := placed.offset
  refine ⟨?_, { placed with device := by rw [viewed]; exact before }⟩
  dsimp only
  omega

theorem read_emptied (emptied : fp.file.Emptied) (atStart : offset = 0) {maxSize : Nat}
    (pos : 0 < maxSize) :
    Ends (read ops maxSize) fp (fun bytes _ => ∃ count, 0 < count ∧ count ≤ maxSize ∧
        bytes = (view fp.device).peek count) Never := by
  rcases emptied with ⟨ioOffset, validLimit, clean, unget⟩
  have start : fp.file.offset = 0 := placed.offset.trans atStart
  by_cases isNoBuffer : fp.file.bufmode = .noBuffer
  · simp only [read, ends_bind]
    refine (ends_ensure (Nat.pos_iff_ne_zero.mp pos)).mpr ?_
    refine ends_initBufmode ops (fun _ => ?_) fun unknown => ?_
    · simp only [takeUnget, ends_bind, ends_getFile, ends_modifyFile, ends_pure, unget, take_nil,
        drop_nil, length_nil, Nat.sub_zero]
      rw [if_neg (Nat.pos_iff_ne_zero.mp pos), ends_bind, ends_getFile, if_pos (.inr isNoBuffer)]
      simp only [readUnbuffered, ends_bind, ends_ioOr]
      refine (isFile.read fp.device maxSize pos).mono ?_ fun _ _ never => never.elim
      rintro bytes dev ⟨count, isPositive, short, isPeek, _⟩
      exact ends_ite.mpr ⟨fun _ => ⟨count, isPositive, short, isPeek⟩,
        fun _ => ⟨count, isPositive, short, isPeek⟩⟩
    · rw [isNoBuffer] at unknown
      cases unknown
  · -- an empty buffer mirrors the device itself
    have mirrors : Mirrors view (view fp.device).position
        { view fp.device with eof := fp.file.statusBits.getLsbD 0 } fp :=
      { placed with
        devicePosition := by rw [ioOffset, add_zero]
        position := by rw [start, add_zero]
        offset_le := by omega
        limit_le := by omega
        contents := .inl ⟨clean, rfl⟩
        valid := fun index below => by omega
        bufmode := isNoBuffer
        unget, eof := rfl }
    refine (read_mirrors isFile mirrors pos).imp ?_
    rintro bytes after ⟨count, isPositive, short, isPeek, _⟩
    refine ⟨count, isPositive, short, isPeek.trans ?_⟩
    rw [beforeRead, if_pos (by omega), mirrors.resume_eq, settled_of_clean clean, ioOffset]
    rfl

end Functions

/-- `tell` and a relative `seek` agree unless bytes are pushed back: `tell` counts them, and the
next position is behind them. -/
theorem tell_after_seek_iff (isFile : IsByteFile ops view) (fp : Stream δ) (dist : Int)
    {told moved : Stream δ} {place : Int} (isFileLike : fp.file.type ≠ .pipeLike)
    (sized : ∀ buf ∈ fp.file.buffer, buf.length = fp.file.bufferSize)
    (roomy : 0 < fp.file.bufferSize) (tells : tell ops fp = .ok place told)
    (seeks : seek ops dist .seekCur told = .ok () moved) :
    (Ends (tell ops) moved (fun next _ => next = place + dist) Never ∧
      ∀ maxSize, 0 < maxSize → Ends (read ops maxSize) moved
        (fun bytes _ => ∃ count, 0 < count ∧ count ≤ maxSize ∧
          bytes = ByteFile.peek ⟨(view moved.device).contents, (place + dist).toNat⟩ count)
        Never) ↔
      fp.file.ungetBytes = [] := by
  have placed : Placed view ((view fp.device).position - fp.file.ioOffset) fp.file.offset fp :=
    ⟨isFileLike, sized, roomy, by omega, rfl⟩
  have first := tell_placed isFile placed
  rw [Ends, tells] at first
  have second := seek_placed isFile first.2 dist
  rw [Ends, seeks] at second
  rcases second with ⟨isPlaced, emptied⟩
  have third := tell_placed isFile isPlaced
  have unget : moved.file.ungetBytes = [] := emptied.2.2.2
  rw [unget, length_nil] at third
  constructor
  · rintro ⟨agrees, _⟩
    rcases third.run with ⟨next, after, ran, isNext, _⟩
    rw [Ends, ran] at agrees
    have isPlace := first.1
    have isSum : next = place + dist := agrees
    exact length_eq_zero_iff.mp (by omega)
  · intro nothing
    rw [nothing, length_nil] at first
    have isPlace := first.1
    refine ⟨third.imp fun next _ isNext => ?_, fun maxSize positive => ?_⟩
    · have isNext' := isNext.1
      omega
    have position : (place + dist).toNat = (view moved.device).position := by
      have dev := isPlaced.device
      rw [emptied.1] at dev
      omega
    rw [position]
    exact read_emptied isFile isPlaced emptied rfl positive

theorem eq_ok_of_outcome {δ α : Type} {result : EStateM.Result Fault (Stream δ) α} {value : α}
    (isOk : (outcome result).1 = .ok value) : result = .ok value (outcome result).2 := by
  cases result with
  | ok _ _ =>
    cases isOk
    rfl
  | error _ _ => cases isOk

/-- Three bytes of four were read ahead; one was given out and one was overwritten. -/
def halfWritten : EStateM.Result Fault (Stream ShortFile) Nat :=
  (do
    let _ ← read shortFile 1
    write shortFile [88] : FileM ShortFile Nat) ⟨new, ⟨⟨[97, 98, 99, 100], 0⟩, [3]⟩⟩

theorem tell_after_seek_dirty : ∃ fp told moved, halfWritten = .ok 1 fp ∧
      (fp.file.dirtyBegin, fp.file.dirtyEnd, fp.file.offset, fp.file.validLimit) = (1, 2, 2, 3) ∧
      tell shortFile fp = .ok 2 told ∧ seek shortFile 1 .seekCur told = .ok () moved ∧
      Ends (tell shortFile) moved (fun next _ => next = 2 + 1) Never := by
  have starts := @eq_ok_of_outcome _ _ halfWritten 1 (by decide +kernel)
  generalize isStream : (outcome halfWritten).2 = fp at starts
  have tells : tell shortFile fp = .ok 2 (outcome (tell shortFile fp)).2 :=
    eq_ok_of_outcome (isStream ▸ by decide +kernel)
  have seeks : seek shortFile 1 .seekCur (outcome (tell shortFile fp)).2 = .ok () _ :=
    eq_ok_of_outcome (isStream ▸ by decide +kernel)
  refine ⟨fp, _, _, starts, isStream ▸ by decide +kernel, tells, seeks, ?_⟩
  have agrees := tell_after_seek_iff isByteFile_shortFile fp 1 (isStream ▸ by decide +kernel)
    (isStream ▸ by decide +kernel) (isStream ▸ by decide +kernel) tells seeks
  exact (agrees.mpr (isStream ▸ by decide +kernel)).1

/-- The byte that was read is pushed back, and `tell` reports 0; one byte on from there is 2. -/
theorem tell_after_seek_unget : (outcome ((do
      let _ ← read shortFile 1
      let _ ← unget shortFile 97
      let place ← tell shortFile
      seek shortFile 1 .seekCur
      return (place, ← tell shortFile) : FileM ShortFile (Int × Int))
        ⟨new, ⟨⟨[97, 98, 99], 0⟩, []⟩⟩)).1 = .ok (0, 2) := by
  decide +kernel

end Mlibc.AbstractFile
