import Mlibc.AbstractFileWrite
import Mlibc.TransitionSystem

/-! # A stream behaves as its file -/

namespace Mlibc.AbstractFile

variable {δ : Type}

/-- The calls of a program. -/
inductive StreamCall where
  | read (maxSize : Nat)
  | write (bytes : List UInt8)
  | seek (offset : Int) (whence : Whence)
  | flush
  | tell
  deriving DecidableEq

/-- What a call returns. -/
inductive Value where
  | bytes (bytes : List UInt8)
  | count (count : Nat)
  | position (position : Int)
  | done
  deriving DecidableEq

namespace StreamCall

def Valid : StreamCall → Prop
  | .read maxSize => 0 < maxSize
  | .write bytes => bytes ≠ []
  | .seek _ whence => whence ≠ .other
  | _ => True

instance : DecidablePred Valid
  | .read maxSize => inferInstanceAs (Decidable (0 < maxSize))
  | .write bytes => inferInstanceAs (Decidable (bytes ≠ []))
  | .seek _ whence => inferInstanceAs (Decidable (whence ≠ .other))
  | .flush => .isTrue trivial
  | .tell => .isTrue trivial

def execute (ops : FileOps δ) : StreamCall → FileM δ Value
  | .read maxSize => Value.bytes <$> AbstractFile.read ops maxSize
  | .write bytes => Value.count <$> AbstractFile.write ops bytes
  | .seek offset whence => (fun _ => Value.done) <$> AbstractFile.seek ops offset whence
  | .flush => (fun _ => Value.done) <$> AbstractFile.flush ops
  | .tell => Value.position <$> AbstractFile.tell ops

def limit : StreamCall → Nat
  | .read maxSize => maxSize
  | .write bytes => bytes.length
  | _ => 1

def direct (count : Nat) (file : DirectFile) : StreamCall → Except Fault Value × DirectFile
  | .read _ => (.ok (.bytes (file.peek count)), file.afterRead (file.peek count))
  | .write bytes => (.ok (.count count), file.afterWrite (bytes.take count))
  | .seek offset whence =>
    match file.toByteFile.seek offset whence with
    | some moved => (.ok .done, { moved with eof := false })
    | none => (.error (.errno .einval), file)
  | .flush => (.ok .done, file)
  | .tell => (.ok (.position file.position), file)

end StreamCall

def DirectStep (file : DirectFile) (call : StreamCall) (result : Except Fault Value)
    (next : DirectFile) : Prop :=
  ∃ count, 0 < count ∧ count ≤ call.limit ∧ call.direct count file = (result, next)

/-- The calls on the file itself can have the results, the last one first. -/
inductive DirectRun (start : DirectFile) :
    List (StreamCall × Except Fault Value) → DirectFile → Prop
  | start : DirectRun start [] start
  | call {hist : List (StreamCall × Except Fault Value)} {file next : DirectFile}
      {call : StreamCall} {result : Except Fault Value} :
      DirectRun start hist file → DirectStep file call result next →
      DirectRun start ((call, result) :: hist) next

/-- A stream with the file that it was opened for and the results so far, the last one
first. -/
structure StreamState (δ : Type) where
  stream : Stream δ
  start : ByteFile UInt8
  history : List (StreamCall × Except Fault Value)

def outcome {α : Type} : EStateM.Result Fault (Stream δ) α → Except Fault α × Stream δ
  | .ok value fp => (.ok value, fp)
  | .error fault fp => (.error fault, fp)

def streamSystem (ops : FileOps δ) (view : δ → ByteFile UInt8) :
    TransitionSystem (StreamState δ) StreamCall where
  initial s :=
    (∃ type bufmode, s.stream.file = { AbstractFile.new with type, bufmode } ∧
      type ≠ .pipeLike ∧ bufmode ≠ .noBuffer) ∧
      s.start = view s.stream.device ∧ s.history = []
  step s call :=
    if call.Valid then
      let (result, fp) := outcome (call.execute ops s.stream)
      some { s with stream := fp, history := (call, result) :: s.history }
    else none

def AtCaller (file : AbstractFile) : Prop := file.settled.ioOffset = file.offset

def InPlace (s : StreamState δ) : StreamCall → Prop
  | .read _ => s.stream.file.offset = s.stream.file.validLimit → s.stream.file.AtCaller
  | .write _ => s.stream.file.offset = s.stream.file.bufferSize → s.stream.file.AtCaller
  | _ => True

instance (file : AbstractFile) : Decidable file.AtCaller :=
  inferInstanceAs (Decidable (_ = _))

instance (s : StreamState δ) : DecidablePred (InPlace s)
  | .read _ => inferInstanceAs (Decidable (_ → _))
  | .write _ => inferInstanceAs (Decidable (_ → _))
  | .seek _ _ => .isTrue trivial
  | .flush => .isTrue trivial
  | .tell => .isTrue trivial

section Calls

variable {ops : FileOps δ} {view : δ → ByteFile UInt8} {direct : DirectFile} {fp : Stream δ}

theorem resume_of_atCaller (rep : Represents view direct fp)
    (atCaller : fp.file.AtCaller) : fp.file.resume direct = direct := by
  rcases rep with ⟨base, mirrors⟩
  rw [mirrors.resume_eq, atCaller, ← mirrors.position]

def StreamCall.before (file : AbstractFile) (direct : DirectFile) : StreamCall → DirectFile
  | .read _ => file.beforeRead direct
  | .write _ => file.beforeWrite direct
  | _ => direct

theorem execute_represents (isFile : IsByteFile ops view)
    (rep : Represents view direct fp) {call : StreamCall} (valid : call.Valid) :
    Ends (call.execute ops) fp
      (fun value after => ∃ next,
        DirectStep (call.before fp.file direct) call (.ok value) next ∧
        Represents view next after)
      (fun fault after => ∃ next,
        DirectStep (call.before fp.file direct) call (.error fault) next ∧
        Represents view next after) := by
  rcases rep with ⟨base, mirrors⟩
  cases call with
  | read maxSize =>
    simp only [StreamCall.execute, ends_map]
    refine (read_mirrors isFile mirrors valid).of_never.imp ?_
    rintro _ after ⟨count, pos, short, rfl, rep⟩
    exact ⟨_, ⟨count, pos, short, rfl⟩, rep⟩
  | write bytes =>
    simp only [StreamCall.execute, ends_map]
    refine (write_mirrors isFile mirrors valid).of_never.imp ?_
    rintro count after ⟨pos, short, rep⟩
    exact ⟨_, ⟨count, pos, short, rfl⟩, rep⟩
  | seek offset whence =>
    simp only [StreamCall.execute, ends_map]
    refine (seek_mirrors isFile mirrors valid).mono ?_ ?_
    · rintro _ after ⟨file, seeks, rep⟩
      refine ⟨_, ⟨1, Nat.one_pos, le_rfl, ?_⟩, rep⟩
      simp only [StreamCall.direct, StreamCall.before, seeks]
    · rintro _ after ⟨rfl, fails, rep⟩
      refine ⟨_, ⟨1, Nat.one_pos, le_rfl, ?_⟩, rep⟩
      simp only [StreamCall.direct, StreamCall.before, fails]
  | flush =>
    simp only [StreamCall.execute, ends_map]
    refine (flush_mirrors isFile mirrors).of_never.imp ?_
    rintro _ after ⟨rep, _⟩
    exact ⟨_, ⟨1, Nat.one_pos, le_rfl, rfl⟩, rep⟩
  | tell =>
    simp only [StreamCall.execute, ends_map]
    refine (tell_mirrors isFile mirrors).of_never.imp ?_
    rintro _ after ⟨rfl, rep⟩
    exact ⟨_, ⟨1, Nat.one_pos, le_rfl, rfl⟩, rep⟩

theorem before_of_inPlace {s : StreamState δ}
    (rep : Represents view direct s.stream) {call : StreamCall}
    (inPlace : InPlace s call) : call.before s.stream.file direct = direct := by
  cases call with
  | read maxSize =>
    show s.stream.file.beforeRead direct = direct
    unfold beforeRead
    split_ifs with isEmpty
    · exact resume_of_atCaller rep (inPlace isEmpty)
    · rfl
  | write bytes =>
    show s.stream.file.beforeWrite direct = direct
    unfold beforeWrite
    split_ifs with isFull
    · exact resume_of_atCaller rep (inPlace isFull)
    · rfl
  | _ => rfl

end Calls

theorem new_represents (view : δ → ByteFile UInt8) (dev : δ) {type : StreamType}
    {bufmode : BufferMode} (notPipe : type ≠ .pipeLike) (buffered : bufmode ≠ .noBuffer) :
    Represents view { view dev with eof := false }
      ⟨{ AbstractFile.new with type, bufmode }, dev⟩ :=
  ⟨(view dev).position,
    { devicePosition := rfl
      position := rfl
      offset_le := le_rfl
      limit_le := Nat.zero_le _
      sized := by rintro buf ⟨⟩
      roomy := Nat.succ_pos _
      contents := .inl ⟨rfl, rfl⟩
      valid := fun index isBelow => absurd isBelow (Nat.not_lt_zero index)
      type := notPipe
      bufmode := buffered
      unget := rfl
      eof := by simp [AbstractFile.new] }⟩

theorem streamSystem_represents {ops : FileOps δ} {view : δ → ByteFile UInt8}
    (isFile : IsByteFile ops view) {s : StreamState δ}
    (reach : (streamSystem ops view).ReachableVia InPlace s) :
    ∃ direct, DirectRun { s.start with eof := false } s.history direct ∧
      Represents view direct s.stream := by
  apply reach.invariant
  · rintro ⟨⟨file, dev⟩, start, hist⟩
      ⟨⟨type, bufmode, isNew, notPipe, buffered⟩, isStart, noCalls⟩
    simp only at isNew isStart noCalls
    subst isNew isStart noCalls
    exact ⟨_, .start, new_represents view dev notPipe buffered⟩
  rintro s call next ⟨direct, runs, rep⟩ inPlace steps
  simp only [streamSystem] at steps
  split_ifs at steps with valid
  have ends := execute_represents isFile rep valid
  rw [before_of_inPlace rep inPlace] at ends
  unfold Ends at ends
  cases ran : call.execute ops s.stream with
  | ok value after | error fault after =>
    rw [ran] at ends steps
    rcases ends with ⟨nextDirect, directStep, nextRep⟩
    cases steps
    exact ⟨nextDirect, .call runs directStep, nextRep⟩

/-- As long as the buffer is emptied only at the place of the caller, the results of all calls are
results of the same calls on the file, and after a flush the device is that file. -/
theorem stream_refines_file (ops : FileOps δ) (view : δ → ByteFile UInt8)
    (isFile : IsByteFile ops view) (s : StreamState δ)
    (reach : (streamSystem ops view).ReachableVia InPlace s) :
    ∃ direct, DirectRun { s.start with eof := false } s.history direct ∧
      s.stream.file.statusBits.getLsbD 0 = direct.eof ∧
      ∃ after, flush ops s.stream = .ok () after ∧ view after.device = direct.toByteFile := by
  rcases streamSystem_represents isFile reach with ⟨direct, runs, base, mirrors⟩
  rcases (flush_mirrors isFile mirrors).run with ⟨_, after, ran, _, viewed⟩
  exact ⟨direct, runs, mirrors.eof, after, ran, viewed⟩

structure ShortFile where
  file : ByteFile UInt8
  counts : List Nat

def ShortFile.next (dev : ShortFile) (size : Nat) : Nat :=
  match dev.counts with
  | [] => size
  | count :: _ => max 1 (min count size)

def shortFile : FileOps ShortFile where
  determineType := return .fileLike
  determineBufmode := return .fullBuffer
  ioRead maxSize := fun dev =>
    let bytes := dev.file.peek (dev.next maxSize)
    .ok bytes ⟨dev.file.advance bytes.length, dev.counts.tail⟩
  ioWrite bytes := fun dev =>
    .ok (dev.next bytes.length)
      ⟨dev.file.write (bytes.take (dev.next bytes.length)), dev.counts.tail⟩
  ioSeek offset whence := fun dev =>
    match dev.file.seek offset whence with
    | some file => .ok file.position { dev with file }
    | none => .error .einval dev
  postFlush := return
  allocate := zeroed

theorem ShortFile.next_bounds (dev : ShortFile) {size : Nat} (pos : 0 < size) :
    0 < dev.next size ∧ dev.next size ≤ size := by
  unfold ShortFile.next
  split <;> omega

theorem isByteFile_shortFile : IsByteFile shortFile ShortFile.file where
  read dev maxSize pos :=
    ⟨dev.next maxSize, (dev.next_bounds pos).1, (dev.next_bounds pos).2,
      rfl, rfl⟩
  write dev bytes ne :=
    have bounds := dev.next_bounds (List.length_pos_iff.mpr ne)
    ⟨bounds.1, bounds.2, rfl⟩
  seek dev offset whence := by
    unfold Ends shortFile
    simp only
    cases seeks : dev.file.seek offset whence with
    | some file => exact ⟨rfl, rfl⟩
    | none => exact ⟨rfl, rfl, rfl⟩
  type _ := ⟨rfl, rfl⟩
  bufmode _ := ⟨.inr rfl, rfl⟩
  postFlush _ := rfl

theorem stream_refines_file_flushed :
    ∃ s direct, (streamSystem shortFile ShortFile.file).ReachableVia InPlace s ∧
      s.history.map Prod.snd = [.ok (.position 4), .ok (.bytes [100]), .ok (.bytes [99]),
        .ok .done, .ok (.count 1), .ok (.bytes [97])] ∧
      DirectRun { s.start with eof := false } s.history direct ∧
      ∃ after, flush shortFile s.stream = .ok () after ∧
        after.device.file = direct.toByteFile := by
  have observed : ∃ s ∈ (streamSystem shortFile ShortFile.file).run InPlace
      ⟨⟨AbstractFile.new, ⟨⟨[97, 98, 99, 100], 0⟩, [3, 1, 1]⟩⟩, ⟨[97, 98, 99, 100], 0⟩, []⟩
        [.read 1, .write [88], .flush, .read 10, .read 10, .tell],
      s.history.map Prod.snd = [.ok (.position 4), .ok (.bytes [100]),
        .ok (.bytes [99]), .ok .done, .ok (.count 1), .ok (.bytes [97])] := by
    decide +kernel
  obtain ⟨s, reach, results⟩ := TransitionSystem.exists_reachable observed
    ⟨⟨.unknown, .unknown, rfl, by simp, by simp⟩, rfl, rfl⟩
  rcases stream_refines_file shortFile ShortFile.file isByteFile_shortFile s reach with
    ⟨direct, directRun, _, flushes⟩
  exact ⟨s, direct, reach, results, directRun, flushes⟩

theorem DirectStep.read_eq {file next : DirectFile} {maxSize : Nat} {bytes : List UInt8}
    (steps : DirectStep file (.read maxSize) (.ok (.bytes bytes)) next) :
    (∃ count, bytes = file.peek count) ∧ next = file.afterRead bytes := by
  rcases steps with ⟨count, _, _, isDirect⟩
  cases isDirect
  exact ⟨⟨count, rfl⟩, rfl⟩

/-- A short read leaves the device behind the place of the caller. -/
theorem stream_reads_twice :
    ∃ s, (streamSystem shortFile ShortFile.file).Reachable s ∧
      ¬ ∃ direct, DirectRun { s.start with eof := false } s.history direct := by
  have observed : ∃ s ∈ (streamSystem shortFile ShortFile.file).run (fun _ _ => True)
      ⟨⟨AbstractFile.new, ⟨⟨[97, 98, 99, 100], 0⟩, []⟩⟩, ⟨[97, 98, 99, 100], 0⟩, []⟩
        [.read 1, .write [88], .read 10, .read 10], s.start = ⟨[97, 98, 99, 100], 0⟩ ∧
      s.history = [(.read 10, .ok (.bytes [99, 100])), (.read 10, .ok (.bytes [99, 100])),
        (.write [88], .ok (.count 1)), (.read 1, .ok (.bytes [97]))] := by
    decide +kernel
  obtain ⟨s, reach, start, hist⟩ := TransitionSystem.exists_reachable observed
    ⟨⟨.unknown, .unknown, rfl, by simp, by simp⟩, rfl, rfl⟩
  refine ⟨s, reach, ?_⟩
  rintro ⟨direct, directRun⟩
  rw [start, hist] at directRun
  rcases directRun with _ | ⟨directRun, lastRead⟩
  rcases directRun with _ | ⟨directRun, secondRead⟩
  rcases directRun with _ | ⟨directRun, firstWrite⟩
  rcases directRun with _ | ⟨directRun, firstRead⟩
  rcases directRun with _ | _
  rcases firstWrite with ⟨_, _, _, isDirect⟩
  cases isDirect
  rcases lastRead.read_eq with ⟨⟨count, again⟩, _⟩
  rw [secondRead.read_eq.2, firstRead.read_eq.2] at again
  simp [ByteFile.peek, DirectFile.afterRead, DirectFile.afterWrite, ByteFile.write,
    ByteFile.written, overwrite] at again

end Mlibc.AbstractFile
