import Mlibc.AbstractFileOutput
import Mlibc.TransitionSystem

/-! # Output is delivered exactly once -/

namespace Mlibc.AbstractFile

variable {δ : Type}

/-- The calls of a stream that is only written. -/
inductive OutputCall where
  | write (bytes : List UInt8)
  | flush
  deriving DecidableEq

/-- The stream, the bytes that its callers have got rid of, and how the last call ended. -/
structure OutputState (δ : Type) where
  stream : Stream δ
  taken : List UInt8
  last : Option (OutputCall × Except Fault Unit)

section Output

variable (ops : FileOps δ)

def OutputCall.execute : OutputCall → FileM δ Unit
  | .write bytes => do
      let _ ← AbstractFile.write ops bytes
      return
  | .flush => AbstractFile.flush ops

/-- The bytes that a call takes from its caller, also if the line that they end is not
flushed then. -/
def OutputCall.taken (fp : Stream δ) : OutputCall → List UInt8
  | .write bytes =>
    match takeChunk ops bytes fp with
    | .ok (chunk, _) _ => bytes.take chunk
    | .error _ _ => []
  | .flush => []

def OutputState.running (s : OutputState δ) : Bool :=
  match s.last with
  | some (_, .error (.errno _)) => true
  | some (_, .error _) => false
  | _ => true

def outputSystem : TransitionSystem (OutputState (Logged δ)) OutputCall where
  initial s :=
    (∃ type bufmode, s.stream.file = { AbstractFile.new with type, bufmode }) ∧
      s.stream.device.accepted = [] ∧ s.taken = [] ∧ s.last = none
  step s call :=
    if s.running then
      let taken := s.taken ++ call.taken (logged ops) s.stream
      match call.execute (logged ops) s.stream with
      | .ok _ fp => some ⟨fp, taken, some (call, .ok ())⟩
      | .error fault fp => some ⟨fp, taken, some (call, .error fault)⟩
    else none

end Output

/-- What the device has accepted is a prefix of what was taken, after a flush all of it, and no call
ends the program. -/
structure DeliversOnce (s : OutputState (Logged δ)) : Prop where
  accepted : s.stream.device.accepted <+: s.taken
  flushed : s.last = some (.flush, .ok ()) → s.stream.device.accepted = s.taken
  returns : ∀ call fault, s.last = some (call, .error fault) →
    (∃ code, fault = .errno code) ∨ call = .write []

section Calls

variable {ops : FileOps δ} {acc : δ → List UInt8} {taken : List UInt8} {fp : Stream δ}

section

variable (records : Records ops acc) (pending : Pending acc taken fp)

include records pending

theorem write_pending {bytes : List UInt8} (ne : bytes ≠ []) :
    Ends (write ops bytes) fp
      (fun _ after => Pending acc (taken ++ (OutputCall.write bytes).taken ops fp) after)
      (Interrupted acc (taken ++ (OutputCall.write bytes).taken ops fp)) := by
  simp only [write, ends_bind]
  refine (takeChunk_pending records pending ne).with_run.mono ?_ ?_
  · rintro ⟨chunk, flushLine⟩ chunked ⟨ran, chunkedPending⟩
    have isTaken : (OutputCall.write bytes).taken ops fp = bytes.take chunk := by
      simp only [OutputCall.taken, ran]
    rw [isTaken]
    refine ends_ite.mpr ⟨fun _ => ?_, fun _ => chunkedPending⟩
    rw [ends_bind]
    refine (writeBack_pending records chunkedPending).imp ?_
    rintro _ after ⟨afterPending, _⟩
    exact afterPending
  · rintro fault after ⟨ran, interrupted⟩
    have isTaken : (OutputCall.write bytes).taken ops fp = [] := by
      simp only [OutputCall.taken, ran]
    rw [isTaken, List.append_nil]
    exact interrupted

theorem execute_pending {call : OutputCall} (ne : call ≠ .write []) :
    Ends (call.execute ops) fp
      (fun _ after => Pending acc (taken ++ call.taken ops fp) after ∧
        (call = .flush → acc after.device = taken ++ call.taken ops fp))
      (Interrupted acc (taken ++ call.taken ops fp)) := by
  cases call with
  | write bytes =>
    simp only [OutputCall.execute, ends_bind]
    have someBytes : bytes ≠ [] := fun isEmpty => ne (congrArg OutputCall.write isEmpty)
    refine (write_pending records pending someBytes).imp ?_
    intro _ after afterPending
    exact ⟨afterPending, fun isFlush => by cases isFlush⟩
  | flush =>
    simp only [OutputCall.taken, List.append_nil]
    refine (flush_pending records pending).imp ?_
    rintro _ after ⟨afterPending, everything⟩
    exact ⟨afterPending, fun _ => everything⟩

end

end Calls

theorem Pending.deliversOnce {fp : Stream (Logged δ)} {taken : List UInt8}
    (pending : Pending Logged.accepted taken fp)
    {last : Option (OutputCall × Except Fault Unit)}
    (flushed : last = some (.flush, .ok ()) → fp.device.accepted = taken)
    (returns : ∀ call fault, last = some (call, .error fault) →
      (∃ code, fault = .errno code) ∨ call = .write []) : DeliversOnce ⟨fp, taken, last⟩ where
  accepted := ⟨_, pending.delivered⟩
  flushed := flushed
  returns := returns

theorem outputSystem_pending {ops : FileOps δ} (accepts : AcceptsBytes ops)
    {s : OutputState (Logged δ)} (reach : (outputSystem ops).Reachable s) :
    Pending Logged.accepted s.taken s.stream ∧ DeliversOnce s := by
  apply reach.invariant
  · rintro ⟨⟨file, dev⟩, taken, last⟩ ⟨⟨type, bufmode, isNew⟩, nothing, noBytes, noCall⟩
    subst isNew noBytes noCall
    have pending : Pending Logged.accepted []
        ⟨{ AbstractFile.new with type, bufmode }, dev⟩ :=
      { delivered := by rw [nothing]; rfl
        limit := rfl
        fits := Nat.zero_le _
        roomy := Nat.succ_pos _
        sized := by rintro buf ⟨⟩
        allocated := fun pos => absurd pos (Nat.lt_irrefl 0)
        dirty := .inl ⟨rfl, rfl⟩ }
    exact ⟨pending, pending.deliversOnce (fun isFlush => by cases isFlush)
      (fun _ _ isError => by cases isError)⟩
  rintro ⟨fp, taken, last⟩ call next ⟨pending, _⟩ _ steps
  simp only [outputSystem] at steps pending
  split_ifs at steps
  by_cases isNil : call = .write []
  · subst isNil
    rw [show (OutputCall.write []).taken _ fp = [] from rfl, List.append_nil] at steps
    cases steps
    refine ⟨pending, pending.deliversOnce (fun isFlush => by cases isFlush) ?_⟩
    rintro call fault ⟨⟩
    exact .inr rfl
  have ends := execute_pending accepts.records pending isNil
  unfold Ends at ends
  cases ran : call.execute (logged ops) fp with
  | ok value after =>
    rw [ran] at ends steps
    cases steps
    refine ⟨ends.1, ends.1.deliversOnce ?_ (fun _ _ isError => by cases isError)⟩
    rintro ⟨⟩
    exact ends.2 rfl
  | error fault after =>
    rw [ran] at ends steps
    cases steps
    refine ⟨ends.2, ends.2.deliversOnce (fun isFlush => by cases isFlush) ?_⟩
    rintro _ _ ⟨⟩
    exact .inl ends.1

/-- Whatever the outcome of the writes, the device gets the bytes of the callers once and in order.
-/
theorem output_delivered_once (ops : FileOps δ) (accepts : AcceptsBytes ops)
    (s : OutputState (Logged δ)) (reach : (outputSystem ops).Reachable s) :
    DeliversOnce s :=
  (outputSystem_pending accepts reach).2

def scriptedTerminal : FileOps (List (Option Nat)) where
  determineType := return .pipeLike
  determineBufmode := return .lineBuffer
  ioRead _ := throw (.other 5)
  ioWrite bytes := fun outcomes =>
    match outcomes with
    | [] => .ok bytes.length []
    | some count :: rest => .ok (max 1 (min count bytes.length)) rest
    | none :: rest => .error (.other 5) rest
  ioSeek _ _ := throw .espipe
  postFlush := return
  allocate := zeroed

theorem acceptsBytes_scriptedTerminal : AcceptsBytes scriptedTerminal where
  write dev bytes ne := by
    have pos := List.length_pos_iff.mpr ne
    unfold Ends scriptedTerminal
    cases dev with
    | nil => exact ⟨pos, le_rfl⟩
    | cons outcome rest =>
      cases outcome with
      | none => trivial
      | some count => omega
  type _ := StreamType.noConfusion
  bufmode _ := BufferMode.noConfusion

/-- A line whose flush is interrupted by an error, and a flush that delivers the rest. -/
theorem output_delivered_once_interrupted :
    ∃ s, (outputSystem scriptedTerminal).Reachable s ∧
      s.last = some (.flush, .ok ()) ∧ s.taken = [97, 98, 10] ∧ DeliversOnce s := by
  have observed : ∃ s ∈ (outputSystem scriptedTerminal).run (fun _ _ => True)
      ⟨⟨AbstractFile.new, ⟨[some 1, none, some 1], []⟩⟩, [], none⟩
        [.write [97, 98, 10, 99], .flush],
      s.last = some (.flush, .ok ()) ∧ s.taken = [97, 98, 10] :=
    ⟨_, rfl, rfl, rfl⟩
  obtain ⟨s, reach, flushed, isTaken⟩ :=
    TransitionSystem.exists_reachable observed ⟨⟨.unknown, .unknown, rfl⟩, rfl, rfl, rfl⟩
  exact ⟨s, reach, flushed, isTaken,
    output_delivered_once scriptedTerminal acceptsBytes_scriptedTerminal s reach⟩

end Mlibc.AbstractFile
