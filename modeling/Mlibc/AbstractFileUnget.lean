import Mlibc.AbstractFileInput
import Mlibc.PushbackStream
import Mlibc.TransitionSystem

/-! # Bytes that are pushed back -/

namespace Mlibc.AbstractFile

open List Option

variable {base : FileOps InputDevice} {fp : Stream InputDevice}

/-- Nothing is lost: what is reported and what is still to come is what was to come. -/
def Keeps (fp : Stream InputDevice) (bytes : List UInt8) (after : Stream InputDevice) : Prop :=
  bytes ++ remaining after = remaining fp ∧
    (bytes = [] → after.file.ungetBytes = fp.file.ungetBytes)

/-- The pushed-back bytes do not suffice, and the device fails or, with a buffer, is at its end. -/
def Exposed (fp : Stream InputDevice) (maxSize : Nat) : Prop :=
  fp.file.ungetBytes ≠ [] ∧ fp.file.ungetBytes.length < maxSize ∧
    (mode fp = .noBuffer ∧ fp.device.Fails ∨
      mode fp ≠ .noBuffer ∧ fp.file.offset = fp.file.validLimit ∧
        (fp.device.Fails ∨ fp.device.Ended))

instance (fp : Stream InputDevice) (maxSize : Nat) : Decidable (Exposed fp maxSize) :=
  inferInstanceAs (Decidable (_ ∧ _))

def ReadEnds (fp : Stream InputDevice) (maxSize : Nat) (bytes : List UInt8)
    (after : Stream InputDevice) : Prop :=
  Clean after ∧ if Exposed fp maxSize then bytes = [] ∧ after.file.ungetBytes = []
    else Keeps fp bytes after

theorem ReadEnds.keeps_iff {maxSize : Nat} {bytes : List UInt8} {after : Stream InputDevice}
    (ends : ReadEnds fp maxSize bytes after) :
    Keeps fp bytes after ↔ ¬Exposed fp maxSize := by
  obtain ⟨_, outcome⟩ := ends
  by_cases exposed : Exposed fp maxSize
  · rw [if_pos exposed] at outcome
    refine iff_of_false ?_ (not_not_intro exposed)
    rintro ⟨_, kept⟩
    exact exposed.1 ((kept outcome.1).symm.trans outcome.2)
  · rw [if_neg exposed] at outcome
    exact iff_of_true outcome exposed

def withoutUnget (fp : Stream InputDevice) (maxSize : Nat) : Stream InputDevice :=
  { fp with file := { fp.file with
    bufmode := mode fp, ungetBytes := fp.file.ungetBytes.drop maxSize } }

theorem mode_withoutUnget (maxSize : Nat) : mode (withoutUnget fp maxSize) = mode fp :=
  if_neg (mode_known fp)

theorem Clean.withoutUnget (clean : Clean fp) (maxSize : Nat) :
    Clean (withoutUnget fp maxSize) := by
  refine { clean with unget_le := ?_, allocated := ?_, unbuffered := ?_ }
  · have bound := clean.unget_le
    change (fp.file.ungetBytes.drop maxSize).length ≤ _
    rw [length_drop]
    omega
  · intro ne
    apply clean.allocated
    rintro isEmpty
    apply ne
    change fp.file.ungetBytes.drop maxSize = []
    rw [isEmpty, drop_nil]
  · intro isUnbuffered
    rw [mode_withoutUnget] at isUnbuffered
    exact clean.unbuffered isUnbuffered

theorem take_append_remaining (fp : Stream InputDevice) (maxSize : Nat) :
    fp.file.ungetBytes.take maxSize ++ remaining (withoutUnget fp maxSize) = remaining fp := by
  change _ ++ (fp.file.ungetBytes.drop maxSize ++ _) = fp.file.ungetBytes ++ _
  rw [← append_assoc, take_append_drop]
  rfl

section Outcomes

variable {maxSize : Nat} {after : Stream InputDevice} (isClean : Clean after)
  (none : after.file.ungetBytes = [])
  (short : fp.file.ungetBytes.length ≤ maxSize)

include isClean none short

theorem ReadEnds.of_more {more : List UInt8} (notExposed : ¬Exposed fp maxSize)
    (same : more ++ remaining after = remaining (AbstractFile.withoutUnget fp maxSize)) :
    ReadEnds fp maxSize (fp.file.ungetBytes ++ more) after := by
  have taken := take_append_remaining fp maxSize
  rw [take_of_length_le short] at taken
  refine ⟨isClean, ?_⟩
  rw [if_neg notExposed]
  refine ⟨?_, fun nothing => ?_⟩
  · rw [append_assoc, same, taken]
  · rw [none, (append_eq_nil_iff.mp nothing).1]

theorem ReadEnds.of_nothing
    (same : remaining after = remaining (AbstractFile.withoutUnget fp maxSize))
    (exposed : fp.file.ungetBytes ≠ [] → Exposed fp maxSize) :
    ReadEnds fp maxSize [] after := by
  by_cases noUnget : fp.file.ungetBytes = []
  · have notExposed : ¬Exposed fp maxSize := fun isExposed => isExposed.1 noUnget
    have kept : ReadEnds fp maxSize (fp.file.ungetBytes ++ []) after :=
      ReadEnds.of_more isClean none short notExposed same
    rwa [noUnget] at kept
  · refine ⟨isClean, ?_⟩
    rw [if_pos (exposed noUnget)]
    exact ⟨rfl, none⟩

end Outcomes

section Branches

variable {maxSize : Nat} (clean : Clean fp) (short : fp.file.ungetBytes.length < maxSize)

include short in
theorem withoutUnget_none : (withoutUnget fp maxSize).file.ungetBytes = [] :=
  drop_eq_nil_of_le short.le

include clean short

theorem readUnbuffered_input (isNoBuffer : mode fp = .noBuffer) :
    Ends (readUnbuffered (inputOps base) (maxSize - fp.file.ungetBytes.length))
      (withoutUnget fp maxSize)
      (fun bytes => ReadEnds fp maxSize (fp.file.ungetBytes ++ bytes))
      (fun fault after => (∃ code, fault = .errno code) ∧ ReadEnds fp maxSize [] after) := by
  have none := withoutUnget_none short
  have cleanBehind := clean.withoutUnget maxSize
  have isEmpty : fp.file.offset = fp.file.validLimit := clean.unbuffered isNoBuffer
  have behind : remaining (withoutUnget fp maxSize) = fp.device.stream :=
    remaining_of_empty none isEmpty
  have cleanWith (dev : InputDevice) (statusBits : BitVec 32) :
      Clean ⟨{ (withoutUnget fp maxSize).file with statusBits }, dev⟩ :=
    { cleanBehind with unbuffered := fun _ => isEmpty }
  have wanted : 0 < maxSize - fp.file.ungetBytes.length := by omega
  simp only [readUnbuffered, ends_bind, ends_ioOr]
  apply (ioRead_ends fp.device wanted).mono
  · rintro bytes dev ⟨notFails, _, delivered, _, sameMode⟩
    have notExposed : ¬Exposed fp maxSize := by
      rintro ⟨_, _, ⟨_, fails⟩ | ⟨hasBuffer, _⟩⟩
      · exact notFails fails
      · exact hasBuffer isNoBuffer
    have kept (statusBits : BitVec 32) : ReadEnds fp maxSize (fp.file.ungetBytes ++ bytes)
        ⟨{ (withoutUnget fp maxSize).file with statusBits }, dev⟩ := by
      apply ReadEnds.of_more (cleanWith dev statusBits) none short.le notExposed
      rw [behind, ← delivered]
      congr 1
      exact remaining_of_empty none isEmpty
    apply ends_ite.mpr
    constructor
    · intro _
      exact kept _
    · intro _
      exact kept _
  · rintro code dev ⟨isFailing, same, _⟩
    refine ⟨⟨code, rfl⟩, ?_⟩
    apply ReadEnds.of_nothing (cleanWith dev (fp.file.statusBits ||| errorBit)) none short.le
    · rw [behind, ← same]
      exact remaining_of_empty none isEmpty
    · exact fun ne => ⟨ne, short, .inl ⟨isNoBuffer, isFailing⟩⟩

theorem readBuffered_input (hasBuffer : mode fp ≠ .noBuffer) : Ends (fillBuffer (inputOps base))
      ⟨{ (withoutUnget fp maxSize).file with ioMode := 0 }, fp.device⟩
      (fun more after => if more = true then
          Ends (takeBuffered (maxSize - fp.file.ungetBytes.length)) after
            (fun bytes => ReadEnds fp maxSize (fp.file.ungetBytes ++ bytes))
            Never
        else ReadEnds fp maxSize [] after)
      (fun fault after => (∃ code, fault = .errno code) ∧ ReadEnds fp maxSize [] after) := by
  have none := withoutUnget_none short
  have modeSame : mode (withoutUnget fp maxSize) ≠ .noBuffer := by
    rw [mode_withoutUnget]
    exact hasBuffer
  have exposed_iff : Exposed fp maxSize ↔ fp.file.ungetBytes ≠ [] ∧
      fp.file.offset = fp.file.validLimit ∧ (fp.device.Fails ∨ fp.device.Ended) := by
    simp [Exposed, short, hasBuffer]
  have wanted : 0 < maxSize - fp.file.ungetBytes.length := by omega
  have ready : Clean ⟨{ (withoutUnget fp maxSize).file with ioMode := 0 },
      fp.device⟩ := { clean.withoutUnget maxSize with }
  apply (fillBuffer_input ready none modeSame).mono
  · rintro more after ⟨isClean, stillNone, same, notFails, ended, available⟩
    cases more with
    | true =>
      have notExposed : ¬Exposed fp maxSize := by
        rw [exposed_iff]
        rintro ⟨_, isEmpty, fails | isEnded⟩
        · exact notFails isEmpty fails
        · exact absurd (ended.mpr ⟨isEmpty, isEnded⟩) (by decide)
      apply (takeBuffered_input isClean stillNone (available rfl) wanted).imp
      rintro bytes final ⟨finalClean, _, finalNone, taken⟩
      exact ReadEnds.of_more finalClean finalNone short.le notExposed (taken.trans same)
    | false =>
      obtain ⟨isEmpty, isEnded⟩ := ended.mp rfl
      apply ReadEnds.of_nothing isClean stillNone short.le same
      exact fun ne => exposed_iff.mpr ⟨ne, isEmpty, .inr isEnded⟩
  · rintro fault after ⟨isErrno, isClean, stillNone, same, isEmpty, isFailing⟩
    refine ⟨isErrno, ReadEnds.of_nothing isClean stillNone short.le same ?_⟩
    exact fun ne => exposed_iff.mpr ⟨ne, isEmpty, .inl isFailing⟩

end Branches

theorem read_input (base : FileOps InputDevice) (clean : Clean fp) {maxSize : Nat}
    (pos : 0 < maxSize) :
    Ends (read (inputOps base) maxSize) fp (ReadEnds fp maxSize)
      (fun fault after => (∃ code, fault = .errno code) ∧ ReadEnds fp maxSize [] after) := by
  simp only [read, ends_bind]
  refine (ends_ensure (Nat.pos_iff_ne_zero.mp pos)).mpr ?_
  apply ends_initBufmode_input
  simp only [takeUnget, ends_bind, ends_getFile]
  have taken := take_append_remaining fp maxSize
  apply ends_ite.mpr
  constructor
  · intro enough
    rw [length_take] at enough
    have notExposed : ¬Exposed fp maxSize := by
      rintro ⟨_, short, _⟩
      omega
    rw [ends_pure]
    refine ⟨clean.withoutUnget maxSize, ?_⟩
    rw [if_neg notExposed]
    refine ⟨taken, fun nothing => ?_⟩
    have length := congrArg length nothing
    rw [length_take, length_nil] at length
    omega
  intro notEnough
  rw [length_take] at notEnough
  have short : fp.file.ungetBytes.length < maxSize := by omega
  have all : fp.file.ungetBytes.take maxSize = fp.file.ungetBytes :=
    take_of_length_le short.le
  rw [all]
  apply ends_ite.mpr
  constructor
  · intro isUnbuffered
    have isNoBuffer : mode fp = .noBuffer := by
      obtain disabled | noBuffer := isUnbuffered
      · cases disabled
      · exact noBuffer
    rw [ends_bind]
    exact readUnbuffered_input clean short isNoBuffer
  intro buffered
  have hasBuffer : mode fp ≠ .noBuffer := fun noBuffer => buffered (.inr noBuffer)
  simp only [ends_bind]
  apply (readBuffered_input clean short hasBuffer).mono
  · intro more after outcome
    cases more with
    | true =>
      rw [if_pos rfl] at outcome ⊢
      rw [ends_bind]
      exact outcome.mono (fun _ _ ends => ends) (fun _ _ impossible => impossible.elim)
    | false => exact outcome
  · exact fun _ _ ends => ends

theorem allocatedAs_input (clean : Clean fp) {buf ungetBytes : List UInt8}
    (alloc : fp.file.AllocatedAs buf ungetBytes) :
    ungetBytes = fp.file.ungetBytes ∧
      Clean { fp with file := { fp.file with buffer := some buf, ungetBytes } } ∧
      segment buf fp.file.offset fp.file.validLimit =
        segment fp.file.memory fp.file.offset fp.file.validLimit := by
  have size : buf.length = fp.file.bufferSize := alloc.length clean.sized
  obtain ⟨isBuffer, rfl⟩ | ⟨notAlloc, _, rfl⟩ := alloc
  · have isMemory : fp.file.memory = buf := by
      rw [memory, isBuffer]
      rfl
    refine ⟨rfl, { clean with limit_le := ?_, sized := ?_, allocated := ?_ }, ?_⟩
    · rw [← isMemory]
      exact clean.limit_le
    · rintro other ⟨rfl⟩
      exact size
    · exact fun _ => some_ne_none _
    · rw [isMemory]
  have noUnget : fp.file.ungetBytes = [] := by
    by_contra ne
    exact clean.allocated ne notAlloc
  have noMemory : fp.file.memory = [] := by
    rw [memory, notAlloc]
    rfl
  have noData : fp.file.validLimit = 0 := by
    have bound := clean.limit_le
    rw [noMemory, length_nil] at bound
    omega
  have noOffset : fp.file.offset = 0 := by
    have bound := clean.offset_le
    omega
  refine ⟨noUnget.symm, { clean with
    limit_le := ?_, sized := ?_, unget_le := Nat.zero_le _, allocated := ?_ }, ?_⟩
  · change fp.file.validLimit ≤ _
    omega
  · rintro other ⟨rfl⟩
    exact size
  · exact fun ne => absurd rfl ne
  · rw [noData, noOffset, segment_self, segment_self]

theorem promoted_eq_eof_iff (byte : UInt8) : byte.toInt8.toInt = -1 ↔ byte = 255 := by
  refine ⟨fun isEof => ?_, fun isLast => isLast ▸ rfl⟩
  have isLast : byte.toInt8 = -1 := Int8.toInt_inj.mp isEof
  exact congrArg Int8.toUInt8 isLast

theorem unget_input (base : FileOps InputDevice) (clean : Clean fp) (byte : UInt8) :
    Ends (unget (inputOps base) byte) fp (fun pushed after => Clean after ∧
        if fp.file.ungetBytes.length < ungetBufferSize then
          pushed = byte.toInt8.toInt ∧ remaining after = byte :: remaining fp
        else pushed = -1 ∧ remaining after = remaining fp) Never := by
  simp only [unget, ends_bind]
  apply ends_ensureAllocation
  intro buf ungetBytes alloc
  obtain ⟨rfl, isClean, sameSegment⟩ := allocatedAs_input clean alloc
  have same : remaining { fp with
      file := { fp.file with buffer := some buf } } = remaining fp := by
    unfold remaining
    rw [← sameSegment]
    rfl
  refine ends_ite.mpr ⟨?_, ?_⟩
  · intro (isFull : fp.file.ungetBytes.length + 1 > ungetBufferSize)
    rw [ends_pure, if_neg (by omega)]
    exact ⟨isClean, rfl, same⟩
  intro (hasRoom : ¬fp.file.ungetBytes.length + 1 > ungetBufferSize)
  rw [ends_bind, ends_modifyFile, ends_pure, if_pos (by omega)]
  refine ⟨{ isClean with unget_le := ?_, allocated := ?_ }, rfl, congrArg (byte :: ·) same⟩
  · exact not_lt.mp hasRoom
  · exact fun _ => some_ne_none _

/-! ### Whole runs -/

inductive InputCall where
  | unget (byte : UInt8)
  | read (maxSize : Nat)
  deriving DecidableEq

/-- A stream with what the device had when it was opened, and what the calls did so far. -/
structure InputState where
  stream : Stream InputDevice
  source : List UInt8
  events : List (PushbackEvent UInt8)

namespace InputCall

def perform (ops : FileOps InputDevice) (fp : Stream InputDevice) :
    InputCall → Option (PushbackEvent UInt8 × Stream InputDevice)
  | .unget byte =>
    match AbstractFile.unget ops byte fp with
    | .ok ret after => some (if ret = -1 then .idle else .pushed byte, after)
    | .error _ _ => none
  | .read maxSize =>
    match AbstractFile.read ops maxSize fp with
    | .ok bytes after => some (.got bytes, after)
    | .error (.errno _) after => some (.idle, after)
    | .error _ _ => none

/-- What the call returns does not tell what it did to the bytes. -/
def Loses (fp : Stream InputDevice) : InputCall → Prop
  | .unget byte => byte = 255 ∧ fp.file.ungetBytes.length < ungetBufferSize
  | .read maxSize => Exposed fp maxSize

instance (fp : Stream InputDevice) : DecidablePred (Loses fp)
  | .unget _ => inferInstanceAs (Decidable (_ ∧ _))
  | .read maxSize => inferInstanceAs (Decidable (Exposed fp maxSize))

end InputCall

def inputSystem (ops : FileOps InputDevice) : TransitionSystem InputState InputCall where
  initial s :=
    (∃ type bufmode, s.stream.file = { AbstractFile.new with type, bufmode }) ∧
      s.source = s.stream.device.stream ∧ s.events = []
  step s call :=
    (call.perform ops s.stream).map fun (event, fp) =>
      { s with stream := fp, events := s.events ++ [event] }

theorem perform_unget (clean : Clean fp) (byte : UInt8) :
    ∃ event after, InputCall.perform (inputOps base) fp (.unget byte) = some (event, after) ∧
      Clean after ∧
      (event = .pushed byte ↔ fp.file.ungetBytes.length < ungetBufferSize ∧ byte ≠ 255) ∧
      (PushbackEvent.Follows [event] (remaining fp) (remaining after) ↔
        ¬InputCall.Loses fp (.unget byte)) := by
  obtain ⟨pushed, after, ran, isClean, ends⟩ := (unget_input base clean byte).run
  refine ⟨if pushed = -1 then .idle else .pushed byte, after, ?_, isClean, ?_⟩
  · rw [InputCall.perform, ran]
  by_cases hasRoom : fp.file.ungetBytes.length < ungetBufferSize
  · obtain ⟨rfl, isFirst⟩ := if_pos hasRoom ▸ ends
    by_cases isLast : byte = 255
    · simp [isFirst, isLast, hasRoom, InputCall.Loses, PushbackEvent.Follows]
    · simp [isFirst, promoted_eq_eof_iff, isLast, hasRoom, InputCall.Loses, PushbackEvent.Follows]
  · obtain ⟨rfl, same⟩ := if_neg hasRoom ▸ ends
    simp [same, hasRoom, InputCall.Loses, PushbackEvent.Follows]

theorem perform_read (clean : Clean fp) {maxSize : Nat} (pos : 0 < maxSize) :
    ∃ event after, InputCall.perform (inputOps base) fp (.read maxSize) =
        some (event, after) ∧ (∀ byte, event ≠ .pushed byte) ∧
      ReadEnds fp maxSize event.elements after := by
  have ends := read_input base clean pos
  unfold Ends at ends
  rw [InputCall.perform]
  cases ran : read (inputOps base) maxSize fp with
  | ok bytes after =>
    rw [ran] at ends
    exact ⟨_, after, rfl, nofun, ends⟩
  | error fault after =>
    rw [ran] at ends
    obtain ⟨⟨code, rfl⟩, nothing⟩ := ends
    exact ⟨_, after, rfl, nofun, nothing⟩

theorem not_perform_read_zero : InputCall.perform (inputOps base) fp (.read 0) = none := rfl

theorem follows_of_perform (clean : Clean fp) {call : InputCall}
    {event : PushbackEvent UInt8} {after : Stream InputDevice}
    (performs : call.perform (inputOps base) fp = some (event, after)) :
    Clean after ∧ (¬call.Loses fp →
      PushbackEvent.Follows [event] (remaining fp) (remaining after)) := by
  cases call with
  | unget byte =>
    obtain ⟨_, _, performsUnget, isClean, _, follows⟩ := perform_unget clean byte
    obtain ⟨rfl, rfl⟩ := Prod.mk.inj (some.inj (performs.symm.trans performsUnget))
    exact ⟨isClean, follows.mpr⟩
  | read maxSize =>
    obtain rfl | pos := Nat.eq_zero_or_pos maxSize
    · cases not_perform_read_zero.symm.trans performs
    obtain ⟨_, _, performsRead, notPushed, ends⟩ := perform_read clean pos
    obtain ⟨rfl, rfl⟩ := Prod.mk.inj (some.inj (performs.symm.trans performsRead))
    refine ⟨ends.1, fun notExposed => ?_⟩
    obtain ⟨same, _⟩ := ends.keeps_iff.mpr notExposed
    cases event with
    | pushed byte => exact absurd rfl (notPushed byte)
    | got bytes => exact ⟨_, same.symm, rfl⟩
    | idle => exact same.symm

theorem new_clean (dev : InputDevice) (type : StreamType) (bufmode : BufferMode) :
    Clean ⟨{ AbstractFile.new with type, bufmode }, dev⟩ where
  notDirty := rfl
  offset_le := le_rfl
  limit_le := le_rfl
  sized := by rintro buf ⟨⟩
  roomy := Nat.succ_pos _
  unget_le := Nat.zero_le _
  allocated := fun ne => absurd rfl ne
  unbuffered := fun _ => rfl

theorem inputSystem_clean {s : InputState}
    (reach : (inputSystem (inputOps base)).Reachable s) : Clean s.stream := by
  apply reach.invariant
  · rintro ⟨⟨file, dev⟩, src, events⟩ ⟨⟨type, bufmode, isNew⟩, _⟩
    cases isNew
    exact new_clean dev type bufmode
  · intro s call next clean _ steps
    obtain ⟨⟨event, after⟩, performs, rfl⟩ := map_eq_some_iff.mp steps
    exact (follows_of_perform clean performs).1

theorem inputSystem_follows {s : InputState} (reach : (inputSystem (inputOps base)).ReachableVia
      (fun s call => ¬call.Loses s.stream) s) :
    Clean s.stream ∧ PushbackEvent.Follows s.events s.source (remaining s.stream) := by
  apply reach.invariant
  · rintro ⟨⟨file, dev⟩, src, events⟩ ⟨⟨type, bufmode, isNew⟩, isSrc, noEvents⟩
    simp only at isNew isSrc noEvents
    subst isNew isSrc noEvents
    exact ⟨new_clean dev type bufmode, rfl⟩
  rintro s call next ⟨clean, follows⟩ keeps steps
  obtain ⟨⟨event, after⟩, performs, rfl⟩ := map_eq_some_iff.mp steps
  obtain ⟨isClean, goesOn⟩ := follows_of_perform clean performs
  exact ⟨isClean, follows.append (goesOn keeps)⟩

/-- A read keeps what was pushed back unless it goes on to a device that fails or, with a buffer,
has come to its end; `unget` returns `EOF` for `0xFF`.  In runs without such calls everything comes
in order. -/
theorem pushedBack_kept_iff (base : FileOps InputDevice) :
    (∀ s, (inputSystem (inputOps base)).Reachable s → (∀ byte, ∃ event after,
          InputCall.perform (inputOps base) s.stream (.unget byte) = some (event, after) ∧
          (event = .pushed byte ↔ s.stream.file.ungetBytes.length < ungetBufferSize ∧ byte ≠ 255) ∧
          (PushbackEvent.Follows [event] (remaining s.stream) (remaining after) ↔
            ¬InputCall.Loses s.stream (.unget byte))) ∧
      ∀ maxSize, 0 < maxSize → ∃ event after,
          InputCall.perform (inputOps base) s.stream (.read maxSize) = some (event, after) ∧
          (Keeps s.stream event.elements after ↔ ¬Exposed s.stream maxSize)) ∧
    ∀ s, (inputSystem (inputOps base)).ReachableVia (fun s call => ¬call.Loses s.stream) s →
      PushbackEvent.Follows s.events s.source (remaining s.stream) ∧
      ∀ (bytes : List UInt8) (events : List (PushbackEvent UInt8)),
        s.events = bytes.map .pushed ++ events →
        (∀ event ∈ events, ∀ byte, event ≠ .pushed byte) →
        PushbackEvent.reported events ++ remaining s.stream = bytes.reverse ++ s.source := by
  constructor
  · intro s reach
    have clean := inputSystem_clean reach
    constructor
    · intro byte
      obtain ⟨event, after, performs, _, tells⟩ := perform_unget clean byte
      exact ⟨event, after, performs, tells⟩
    · intro maxSize positive
      obtain ⟨event, after, performs, _, ends⟩ := perform_read clean positive
      exact ⟨event, after, performs, ends.keeps_iff⟩
  · intro s reach
    obtain ⟨_, follows⟩ := inputSystem_follows reach
    refine ⟨follows, ?_⟩
    intro bytes events isEvents onlyReads
    rw [isEvents] at follows
    exact follows.last_in_first_out onlyReads

def silentOps : FileOps InputDevice where
  determineType := fun dev => .ok dev.type dev
  determineBufmode := fun dev => .ok dev.bufmode dev
  ioRead := InputDevice.ioRead
  ioWrite _ := fun dev => .error .einval dev
  ioSeek _ _ := fun dev => .error .einval dev
  postFlush := return
  allocate := zeroed

theorem pushedBack_kept_pipe : ∃ s, (inputSystem (inputOps silentOps)).ReachableVia
        (fun s call => ¬call.Loses s.stream) s ∧
      s.events = [.pushed 2, .pushed 1, .got [1, 2, 3], .idle, .got [4]] ∧
      PushbackEvent.reported [.got [1, 2, 3], .idle, .got [4]] ++ remaining s.stream =
        [1, 2] ++ s.source := by
  have observed : ∃ s ∈ (inputSystem (inputOps silentOps)).run (fun s call => ¬call.Loses s.stream)
      ⟨⟨AbstractFile.new, ⟨.pipeLike, .fullBuffer, [.ok 1, .error .einval], [3, 4], by decide,
        by decide⟩⟩, [3, 4], []⟩
      [.unget 2, .unget 1, .read 4, .read 1, .read 7],
      s.events = [.pushed 2, .pushed 1, .got [1, 2, 3], .idle, .got [4]] := by
    decide +kernel
  obtain ⟨s, reach, isEvents⟩ :=
    TransitionSystem.exists_reachable observed ⟨⟨.unknown, .unknown, rfl⟩, rfl, rfl⟩
  refine ⟨s, reach, isEvents, ?_⟩
  exact ((pushedBack_kept_iff silentOps).2 s reach).2 [2, 1] _ isEvents (by simp)

/-- A read at the end of the device drops the byte that was pushed back. -/
theorem pushedBack_lost_at_end : ∃ s, (inputSystem (inputOps silentOps)).Reachable s ∧
      s.source = [] ∧ s.events = [.pushed 65, .got []] ∧ remaining s.stream = [] ∧
      ¬PushbackEvent.Follows s.events s.source (remaining s.stream) := by
  have observed : ∃ s ∈ (inputSystem (inputOps silentOps)).run (fun _ _ => True)
      ⟨⟨AbstractFile.new, ⟨.fileLike, .fullBuffer, [], [], by decide, by decide⟩⟩, [], []⟩
      [.unget 65, .read 2], s.source = [] ∧ s.events = [.pushed 65, .got []] ∧
        remaining s.stream = [] := by
    decide +kernel
  obtain ⟨s, reach, isSrc, isEvents, nothingLeft⟩ :=
    TransitionSystem.exists_reachable observed ⟨⟨.unknown, .unknown, rfl⟩, rfl, rfl⟩
  refine ⟨s, reach, isSrc, isEvents, nothingLeft, ?_⟩
  rw [isEvents, nothingLeft]
  rintro ⟨rest, isRest, isEmpty⟩
  cases isEmpty
  cases isRest

end Mlibc.AbstractFile
