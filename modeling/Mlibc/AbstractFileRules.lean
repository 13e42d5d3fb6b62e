import Mlibc.AbstractFile

/-! # Rules for the functions of a stream -/

namespace Mlibc.AbstractFile

variable {δ α : Type} {fp : Stream δ} {fails : Fault → Stream δ → Prop}

def memory (file : AbstractFile) : List UInt8 := file.buffer.getD []

/-! ### Access -/

section Access

variable {returns : Unit → Stream δ → Prop}

@[simp]
theorem ends_getFile {returns : AbstractFile → Stream δ → Prop} :
    Ends getFile fp returns fails ↔ returns fp.file fp :=
  .rfl

@[simp]
theorem ends_modifyFile (f : AbstractFile → AbstractFile) :
    Ends (modifyFile f) fp returns fails ↔ returns () { fp with file := f fp.file } :=
  .rfl

@[simp]
theorem ends_setStatus (bit : BitVec 32) : Ends (setStatus bit) fp returns fails ↔
      returns () { fp with
        file := { fp.file with statusBits := fp.file.statusBits ||| bit } } :=
  .rfl

theorem ends_ensure {cond : Prop} [Decidable cond] (holds : cond) :
    Ends (ensure cond) fp returns fails ↔ returns () fp := by
  rw [ensure, if_pos holds, ends_pure]

theorem ends_attempt (op : EStateM Errno δ α) {returns : Except Errno α → Stream δ → Prop} :
    Ends (attempt op) fp returns fails ↔
      Ends op fp.device (fun value device => returns (.ok value) { fp with device })
        (fun code device => returns (.error code) { fp with device }) := by
  simp only [Ends, attempt]
  cases op fp.device <;> rfl

theorem ends_ioOr (failed : Errno → FileM δ Unit) (op : EStateM Errno δ α)
    {returns : α → Stream δ → Prop} :
    Ends (ioOr failed op) fp returns fails ↔
      Ends op fp.device (fun value device => returns value { fp with device })
        (fun code device => Ends (failed code) { fp with device }
          (fun _ after => fails (.errno code) after) fails) := by
  simp only [ioOr, ends_bind, ends_attempt, ends_pure, ends_throw]

theorem ends_io (op : EStateM Errno δ α) {returns : α → Stream δ → Prop} :
    Ends (io op) fp returns fails ↔
      Ends op fp.device (fun value device => returns value { fp with device })
        (fun code device => fails (.errno code) { fp with device }) := by
  simp only [io, ends_ioOr, ends_pure]

theorem ends_bufferSegment {first last : Nat} {returns : List UInt8 → Stream δ → Prop}
    (ne : 0 < last) (inside : last ≤ fp.file.memory.length)
    (sized : fp.file.memory.length ≤ fp.file.bufferSize) :
    Ends (bufferSegment first last) fp returns fails ↔
      returns (segment fp.file.memory first last) fp := by
  simp only [bufferSegment, ends_bind, ends_getFile]
  cases alloc : fp.file.buffer with
  | none =>
    simp only [memory, alloc, Option.getD_none, List.length_nil] at inside
    omega
  | some buf =>
    simp only [memory, alloc, Option.getD_some] at inside sized ⊢
    rw [if_pos (by omega), ends_pure]

theorem ends_copyToBuffer {place : Nat} {bytes buf : List UInt8} (alloc : fp.file.buffer = some buf)
    (inside : place + bytes.length ≤ fp.file.bufferSize) :
    Ends (copyToBuffer place bytes) fp returns fails ↔ returns () { fp with
        file := { fp.file with buffer := some (overwrite buf place bytes) } } := by
  simp only [copyToBuffer, ends_bind, ends_getFile, alloc]
  rw [if_pos inside, ends_modifyFile]

end Access

/-! ### Internal functions -/

variable (ops : FileOps δ) {returns : Unit → Stream δ → Prop}

theorem ends_initType (known : fp.file.type ≠ .unknown → returns () fp)
    (determined : fp.file.type = .unknown → Ends ops.determineType fp.device
        (fun type device => type ≠ .unknown ∧ returns () ⟨{ fp.file with type }, device⟩)
        (fun code device => fails (.errno code) { fp with device })) :
    Ends (initType ops) fp returns fails := by
  refine ends_ite.mpr ⟨known, fun unknown => ?_⟩
  simp only [ends_bind, ends_io]
  refine (determined (not_not.mp unknown)).imp ?_
  rintro type device ⟨isKnown, result⟩
  exact (ends_ensure isKnown).mpr result

theorem ends_initBufmode (known : fp.file.bufmode ≠ .unknown → returns () fp)
    (determined : fp.file.bufmode = .unknown → Ends ops.determineBufmode fp.device
        (fun bufmode device =>
          bufmode ≠ .unknown ∧ returns () ⟨{ fp.file with bufmode }, device⟩)
        (fun code device => fails (.errno code) { fp with device })) :
    Ends (initBufmode ops) fp returns fails := by
  refine ends_ite.mpr ⟨known, fun unknown => ?_⟩
  simp only [ends_bind, ends_io]
  refine (determined (not_not.mp unknown)).imp ?_
  rintro bufmode device ⟨isKnown, result⟩
  exact (ends_ensure isKnown).mpr result

theorem ends_writeBackLoop (invariant : Stream δ → Prop)
    (inside : ∀ fp, invariant fp → fp.file.ioOffset < fp.file.dirtyEnd →
      fp.file.dirtyEnd ≤ fp.file.memory.length ∧ fp.file.memory.length ≤ fp.file.bufferSize)
    (writes : ∀ fp, invariant fp → fp.file.ioOffset < fp.file.dirtyEnd →
      Ends (ops.ioWrite (segment fp.file.memory fp.file.ioOffset fp.file.dirtyEnd)) fp.device
        (fun ioSize device => 0 < ioSize ∧ invariant ⟨{ fp.file with
            ioOffset := fp.file.ioOffset + ioSize
            dirtyBegin := fp.file.dirtyBegin + ioSize }, device⟩)
        (fun code device => fails (.errno code)
          ⟨{ fp.file with statusBits := fp.file.statusBits ||| errorBit }, device⟩))
    {fuel : Nat} (enough : fp.file.dirtyEnd - fp.file.ioOffset < fuel)
    (holds : invariant fp) :
    Ends (writeBackLoop ops fuel) fp
      (fun _ after => invariant after ∧ after.file.dirtyEnd ≤ after.file.ioOffset) fails := by
  induction fuel generalizing fp with
  | zero => omega
  | succ fuel ih =>
    refine ends_ite.mpr ⟨fun remains => ?_, fun done => ⟨holds, by omega⟩⟩
    rcases inside fp holds remains with ⟨valid, sized⟩
    simp only [ends_bind, ends_bufferSegment (by omega : 0 < fp.file.dirtyEnd) valid sized,
      ends_ioOr]
    refine (writes fp holds remains).imp ?_
    rintro ioSize device ⟨pos, kept⟩
    refine (ends_ensure pos).mpr (ih ?_ kept)
    show fp.file.dirtyEnd - (fp.file.ioOffset + ioSize) < fuel
    omega

theorem ends_seekToDirty_of_eq (known : fp.file.type ≠ .unknown)
    (atDirty : fp.file.ioOffset = fp.file.dirtyBegin) (holds : returns () fp) :
    Ends (seekToDirty ops) fp returns fails := by
  simp only [seekToDirty, ends_bind, ends_getFile]
  rw [if_neg (not_not.mpr atDirty), if_neg (not_not.mpr atDirty)]
  refine ends_ite.mpr ⟨fun _ => holds, fun notFile => ?_⟩
  have isPipe : fp.file.type = .pipeLike := by
    cases type : fp.file.type with
    | unknown => exact absurd type known
    | fileLike => exact absurd type notFile
    | pipeLike => rfl
  exact (ends_bind _ _).mpr ((ends_ensure isPipe).mpr holds)

def AllocatedAs (file : AbstractFile) (buf ungetBytes : List UInt8) : Prop :=
  file.buffer = some buf ∧ ungetBytes = file.ungetBytes ∨
    file.buffer = none ∧ buf.length = file.bufferSize ∧ ungetBytes = []

theorem ends_ensureAllocation (holds : ∀ buf ungetBytes, fp.file.AllocatedAs buf ungetBytes →
      returns () { fp with file := { fp.file with buffer := some buf, ungetBytes } }) :
    Ends (ensureAllocation ops) fp returns fails := by
  simp only [ensureAllocation, ends_bind, ends_getFile]
  cases isAllocated : fp.file.buffer with
  | none => exact holds _ [] (.inr ⟨isAllocated, (ops.allocate fp.file.bufferSize).2, rfl⟩)
  | some buf =>
    have unchanged := holds buf fp.file.ungetBytes (.inl ⟨isAllocated, rfl⟩)
    rw [← isAllocated] at unchanged
    exact unchanged

theorem AllocatedAs.length {file : AbstractFile} {buf ungetBytes : List UInt8}
    (alloc : file.AllocatedAs buf ungetBytes)
    (sized : ∀ buf ∈ file.buffer, buf.length = file.bufferSize) :
    buf.length = file.bufferSize := by
  rcases alloc with ⟨isBuffer, _⟩ | ⟨_, length, _⟩
  · exact sized buf isBuffer
  · exact length

/-! ### Chunks -/

theorem chunkOf_le (file : AbstractFile) (bytes : List UInt8) :
    (file.chunkOf bytes).1 ≤ min (file.bufferSize - file.offset) bytes.length := by
  simp only [chunkOf]
  split_ifs with isLine
  · split
    · next newline found =>
        rcases List.idxOf?_eq_some_iff.mp found with ⟨inside, _⟩
        rw [List.length_take] at inside
        omega
    · exact le_rfl
  · exact le_rfl

theorem chunkOf_pos {file : AbstractFile} {bytes : List UInt8}
    (room : file.offset < file.bufferSize) (ne : bytes ≠ []) :
    0 < (file.chunkOf bytes).1 := by
  have pos : 0 < min (file.bufferSize - file.offset) bytes.length := by
    have length := List.length_pos_iff.mpr ne
    omega
  simp only [chunkOf]
  split_ifs with isLine
  · split
    · next newline found => exact Nat.succ_pos newline
    · exact pos
  · exact pos

def store (file : AbstractFile) (buf ungetBytes chunk : List UInt8) : AbstractFile :=
  markDirty { file with
    ioMode := 1, buffer := some (overwrite buf file.offset chunk), ungetBytes } chunk.length

theorem ends_putBuffered {bytes : List UInt8} {returns : Nat × Bool → Stream δ → Prop}
    (ne : bytes ≠ [])
    (room : Ends (makeRoom ops) fp (fun _ after => after.file.offset < after.file.bufferSize ∧
        ∀ buf ungetBytes, after.file.AllocatedAs buf ungetBytes →
          bytes.take (after.file.chunkOf bytes).1 ≠ [] →
          after.file.offset + (bytes.take (after.file.chunkOf bytes).1).length ≤
            after.file.bufferSize →
          returns (after.file.chunkOf bytes) { after with
            file := after.file.store buf ungetBytes
              (bytes.take (after.file.chunkOf bytes).1) }) fails) :
    Ends (putBuffered ops bytes) fp returns fails := by
  simp only [putBuffered, ends_bind]
  refine room.imp ?_
  rintro _ after ⟨hasRoom, stores⟩
  have pos := chunkOf_pos hasRoom ne
  have short := chunkOf_le after.file bytes
  have length : (bytes.take (after.file.chunkOf bytes).1).length = (after.file.chunkOf bytes).1 :=
    List.length_take_of_le (by omega)
  have fits : after.file.offset + (bytes.take (after.file.chunkOf bytes).1).length ≤
      after.file.bufferSize := by omega
  refine (ends_ensure hasRoom).mpr ?_
  refine (ends_ensure (Nat.pos_iff_ne_zero.mp pos)).mpr (ends_ensureAllocation ops ?_)
  intro buf ungetBytes alloc
  refine (ends_copyToBuffer rfl ?_).mpr ?_
  · exact fits
  have stored := stores buf ungetBytes alloc (List.length_pos_iff.mp (by omega)) fits
  rw [store, length] at stored
  exact stored

end Mlibc.AbstractFile
