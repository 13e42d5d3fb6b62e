import Mlibc.ByteFile
import Mlibc.Errno
import Mlibc.Postconditions

/-!
# Buffered streams

The stream class `abstract_file`: a buffer in front of a device.
-/

namespace Mlibc

/-- `stream_type`. -/
inductive StreamType where
  | unknown
  | fileLike
  | pipeLike
  deriving DecidableEq

/-- `buffer_mode`. -/
inductive BufferMode where
  | unknown
  | noBuffer
  | lineBuffer
  | fullBuffer
  deriving DecidableEq

/-- The virtual functions of a stream, on a device.  Fresh memory has arbitrary contents. -/
structure FileOps (δ : Type) where
  determineType : EStateM Errno δ StreamType
  determineBufmode : EStateM Errno δ BufferMode
  ioRead : (maxSize : Nat) → EStateM Errno δ (List UInt8)
  ioWrite : (bytes : List UInt8) → EStateM Errno δ Nat
  ioSeek : (offset : Int) → Whence → EStateM Errno δ Int
  postFlush : EStateM Errno δ Unit
  allocate : (size : Nat) → { memory : List UInt8 // memory.length = size }

def zeroed (size : Nat) : { memory : List UInt8 // memory.length = size } :=
  ⟨List.replicate size 0, List.length_replicate⟩

/-- The data of a stream.  `ungetBytes` are the bytes from `__unget_ptr` to `__buffer_ptr`. -/
structure AbstractFile where
  type : StreamType
  bufmode : BufferMode
  buffer : Option (List UInt8)
  bufferSize : Nat
  ungetBytes : List UInt8
  offset : Nat
  ioOffset : Nat
  validLimit : Nat
  dirtyBegin : Nat
  dirtyEnd : Nat
  ioMode : Nat
  statusBits : BitVec 32
  deriving DecidableEq

/-- A stream together with its device. -/
structure Stream (δ : Type) where
  file : AbstractFile
  device : δ

/-- An error, a failed `__ensure`, undefined behaviour, or the bound of the model on loops. -/
inductive Fault where
  | errno (code : Errno)
  | ensure
  | undefined
  | outOfFuel
  deriving DecidableEq

abbrev FileM (δ : Type) := EStateM Fault (Stream δ)

namespace AbstractFile

def globallyDisableBuffering : Bool := false

def ungetBufferSize : Nat := 8

def eofBit : BitVec 32 := 1

def errorBit : BitVec 32 := 2

def new : AbstractFile where
  type := .unknown
  bufmode := .unknown
  buffer := none
  bufferSize := 4096
  ungetBytes := []
  offset := 0
  ioOffset := 0
  validLimit := 0
  dirtyBegin := 0
  dirtyEnd := 0
  ioMode := 0
  statusBits := 0

def Unbuffered (file : AbstractFile) : Prop :=
  globallyDisableBuffering = true ∨ file.bufmode = .noBuffer

instance (file : AbstractFile) : Decidable file.Unbuffered :=
  inferInstanceAs (Decidable (_ ∨ _))

section Access

variable {δ α : Type}

def getFile : FileM δ AbstractFile := do
  return (← get).file

def modifyFile (f : AbstractFile → AbstractFile) : FileM δ Unit :=
  modify fun fp => { fp with file := f fp.file }

def ensure (cond : Prop) [Decidable cond] : FileM δ Unit :=
  if cond then pure () else throw .ensure

def setStatus (bit : BitVec 32) : FileM δ Unit :=
  modifyFile fun file => { file with statusBits := file.statusBits ||| bit }

def attempt (op : EStateM Errno δ α) : FileM δ (Except Errno α) := fun fp =>
  match op fp.device with
  | .ok value device => .ok (.ok value) { fp with device }
  | .error code device => .ok (.error code) { fp with device }

def ioOr (failed : Errno → FileM δ Unit) (op : EStateM Errno δ α) : FileM δ α := do
  match ← attempt op with
  | .ok value => return value
  | .error code =>
    failed code
    throw (.errno code)

def io (op : EStateM Errno δ α) : FileM δ α := ioOr (fun _ => pure ()) op

def bufferSegment (first last : Nat) : FileM δ (List UInt8) := do
  let file ← getFile
  match file.buffer with
  | some buf =>
    if last ≤ file.bufferSize then return segment buf first last else throw .undefined
  | none => throw .undefined

def copyToBuffer (place : Nat) (bytes : List UInt8) : FileM δ Unit := do
  let file ← getFile
  match file.buffer with
  | some buf =>
    if place + bytes.length ≤ file.bufferSize then
      modifyFile fun file => { file with buffer := some (overwrite buf place bytes) }
    else throw .undefined
  | none => throw .undefined

end Access

section Functions

variable {δ : Type} (ops : FileOps δ)

/-! ### Internal functions -/

/-- `_init_type`. -/
def initType : FileM δ Unit := do
  let file ← getFile
  if file.type ≠ .unknown then
    return
  else
    let type ← io ops.determineType
    modifyFile fun file => { file with type }
    ensure (type ≠ .unknown)

/-- `_init_bufmode`. -/
def initBufmode : FileM δ Unit := do
  let file ← getFile
  if file.bufmode ≠ .unknown then
    return
  else
    let bufmode ← io ops.determineBufmode
    modifyFile fun file => { file with bufmode }
    ensure (bufmode ≠ .unknown)

/-- `_ensure_allocation`. -/
def ensureAllocation : FileM δ Unit := do
  let file ← getFile
  if file.buffer ≠ none then
    return
  else
    modifyFile fun file =>
      { file with buffer := some (ops.allocate file.bufferSize), ungetBytes := [] }

def seekToDirty : FileM δ Unit := do
  let file ← getFile
  if file.type = .fileLike then
    if file.ioOffset ≠ file.dirtyBegin then
      let _ ← io (ops.ioSeek (file.dirtyBegin - file.ioOffset) .seekCur)
      modifyFile fun file => { file with ioOffset := file.dirtyBegin }
    else
      return
  else
    ensure (file.type = .pipeLike)
    if file.ioOffset ≠ file.dirtyBegin then throw (.errno .espipe) else return

def writeBackLoop : Nat → FileM δ Unit
  | 0 => throw .outOfFuel
  | fuel + 1 => do
      let file ← getFile
      if file.ioOffset < file.dirtyEnd then
        let bytes ← bufferSegment file.ioOffset file.dirtyEnd
        let ioSize ← ioOr (fun _ => setStatus errorBit) (ops.ioWrite bytes)
        ensure (ioSize > 0)
        modifyFile fun file =>
          { file with
            ioOffset := file.ioOffset + ioSize
            dirtyBegin := file.dirtyBegin + ioSize }
        writeBackLoop fuel
      else
        return

/-- `_write_back`. -/
def writeBack : FileM δ Unit := do
  initType ops
  let file ← getFile
  if file.dirtyBegin = file.dirtyEnd then
    return
  else
    seekToDirty ops
    writeBackLoop ops (file.dirtyEnd - file.dirtyBegin + 1)

/-- `_save_pos`. -/
def savePos : FileM δ Bool := do
  initType ops
  initBufmode ops
  let file ← getFile
  if file.bufmode ≠ .noBuffer ∧ file.offset ≠ file.ioOffset then
    match ← attempt (ops.ioSeek (file.offset - file.ioOffset) .seekCur) with
    | .error code =>
      if code = .espipe then
        modifyFile fun file => { file with type := .pipeLike }
        return true
      else
        setStatus errorBit
        throw (.errno code)
    | .ok _ =>
      modifyFile fun file => { file with type := .fileLike }
      return false
  else
    return false

/-- `_reset`. -/
def reset : FileM δ Unit := do
  initType ops
  let file ← getFile
  ensure (file.type = .pipeLike → file.offset = file.validLimit)
  ensure (file.dirtyBegin = file.dirtyEnd)
  modifyFile fun file => { file with offset := 0, ioOffset := 0, validLimit := 0 }

/-! ### Reading -/

def takeUnget (maxSize : Nat) : FileM δ (List UInt8) := do
  let file ← getFile
  modifyFile fun file => { file with ungetBytes := file.ungetBytes.drop maxSize }
  return file.ungetBytes.take maxSize

def readUnbuffered (maxSize : Nat) : FileM δ (List UInt8) := do
  let bytes ← ioOr (fun _ => setStatus errorBit) (ops.ioRead maxSize)
  if bytes = [] then
    setStatus eofBit
    return bytes
  else
    return bytes

def readAhead : FileM δ Bool := do
  writeBack ops
  reset ops
  ensureAllocation ops
  let file ← getFile
  let bytes ← ioOr (fun _ => setStatus errorBit) (ops.ioRead file.bufferSize)
  if bytes = [] then
    setStatus eofBit
    return false
  else
    copyToBuffer 0 bytes
    modifyFile fun file => { file with ioOffset := bytes.length, validLimit := bytes.length }
    return true

def fillBuffer : FileM δ Bool := do
  let file ← getFile
  if file.offset = file.validLimit then readAhead ops else return true

def takeBuffered (maxSize : Nat) : FileM δ (List UInt8) := do
  let file ← getFile
  ensure (file.offset < file.validLimit)
  let chunk := min (file.validLimit - file.offset) maxSize
  let bytes ← bufferSegment file.offset (file.offset + chunk)
  modifyFile fun file => { file with offset := file.offset + chunk }
  return bytes

def read (maxSize : Nat) : FileM δ (List UInt8) := do
  ensure (maxSize ≠ 0)
  initBufmode ops
  let pushedBack ← takeUnget maxSize
  if maxSize - pushedBack.length = 0 then
    return pushedBack
  else
    let file ← getFile
    if file.Unbuffered then
      let bytes ← readUnbuffered ops (maxSize - pushedBack.length)
      return pushedBack ++ bytes
    else
      modifyFile fun file => { file with ioMode := 0 }
      if ← fillBuffer ops then
        let bytes ← takeBuffered (maxSize - pushedBack.length)
        return pushedBack ++ bytes
      else
        return []

/-! ### Writing -/

/-- The number of bytes that are taken into the buffer, and whether they end a line that
has to be written. -/
def chunkOf (file : AbstractFile) (bytes : List UInt8) : Nat × Bool :=
  let chunk := min (file.bufferSize - file.offset) bytes.length
  if file.bufmode = .lineBuffer then
    match (bytes.take chunk).idxOf? 10 with
    | some newline => (newline + 1, true)
    | none => (chunk, false)
  else
    (chunk, false)

def makeRoom : FileM δ Unit := do
  let file ← getFile
  if file.offset = file.bufferSize then
    writeBack ops
    reset ops
  else
    return

def markDirty (file : AbstractFile) (chunk : Nat) : AbstractFile :=
  { file with
    dirtyBegin :=
      if file.dirtyBegin ≠ file.dirtyEnd then min file.dirtyBegin file.offset else file.offset
    dirtyEnd :=
      if file.dirtyBegin ≠ file.dirtyEnd then max file.dirtyEnd (file.offset + chunk)
      else file.offset + chunk
    validLimit := max (file.offset + chunk) file.validLimit
    offset := file.offset + chunk }

def putBuffered (bytes : List UInt8) : FileM δ (Nat × Bool) := do
  makeRoom ops
  modifyFile fun file => { file with ioMode := 1 }
  let file ← getFile
  ensure (file.offset < file.bufferSize)
  let (chunk, flushLine) := file.chunkOf bytes
  ensure (chunk ≠ 0)
  ensureAllocation ops
  copyToBuffer file.offset (bytes.take chunk)
  modifyFile fun file => file.markDirty chunk
  return (chunk, flushLine)

def writeUnbuffered (bytes : List UInt8) : FileM δ Nat := do
  let file ← getFile
  ensure (file.dirtyBegin = file.dirtyEnd)
  ioOr (fun _ => setStatus errorBit) (ops.ioWrite bytes)

/-- The first part of `write`: the number of bytes that are taken from the caller, and
whether a line has to be flushed. -/
def takeChunk (bytes : List UInt8) : FileM δ (Nat × Bool) := do
  ensure (bytes.length ≠ 0)
  initBufmode ops
  let file ← getFile
  if file.Unbuffered then
    let ioSize ← writeUnbuffered ops bytes
    return (ioSize, false)
  else
    putBuffered ops bytes

def write (bytes : List UInt8) : FileM δ Nat := do
  let (chunk, flushLine) ← takeChunk ops bytes
  if flushLine then
    writeBack ops
    return chunk
  else
    return chunk

/-! ### The other functions -/

/-- `EOF` is -1, and where `char` is signed the pushed byte `0xFF` is promoted to the same. -/
def unget (byte : UInt8) : FileM δ Int := do
  ensureAllocation ops
  let file ← getFile
  if file.ungetBytes.length + 1 > ungetBufferSize then
    return -1
  else
    modifyFile fun file => { file with ungetBytes := byte :: file.ungetBytes }
    return byte.toInt8.toInt

def updateBufmode (bufmode : BufferMode) : FileM δ Unit := do
  let file ← getFile
  ensure (file.dirtyBegin = file.dirtyEnd)
  modifyFile fun file => { file with bufmode }

def purge : FileM δ Unit :=
  modifyFile fun file =>
    { file with
      offset := 0
      ioOffset := 0
      validLimit := 0
      dirtyEnd := file.dirtyBegin
      ungetBytes := [] }

def flushDirty : FileM δ Unit := do
  let file ← getFile
  if file.dirtyEnd ≠ file.dirtyBegin then writeBack ops else return

def flush : FileM δ Unit := do
  flushDirty ops
  let preserveBuf ← savePos ops
  if preserveBuf then
    io ops.postFlush
  else
    purge
    io ops.postFlush

def tell : FileM δ Int := do
  let seekOffset ← io (ops.ioSeek 0 .seekCur)
  let file ← getFile
  return seekOffset + (file.offset - file.ioOffset) + (0 - file.ungetBytes.length)

def seekOffset (file : AbstractFile) (offset : Int) (whence : Whence) : Int :=
  if whence = .seekCur then offset + (file.offset - file.ioOffset) else offset

def seek (offset : Int) (whence : Whence) : FileM δ Unit := do
  writeBack ops
  ensure (whence = .seekCur ∨ whence = .seekSet ∨ whence = .seekEnd)
  let file ← getFile
  let _ ← ioOr
    (fun code => if code = .espipe then modifyFile fun file => { file with type := .pipeLike }
      else return)
    (ops.ioSeek (file.seekOffset offset whence) whence)
  purge
  modifyFile fun file => { file with statusBits := file.statusBits &&& ~~~ eofBit }

end Functions

end AbstractFile

end Mlibc
