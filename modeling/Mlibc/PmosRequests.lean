import Mathlib.Tactic.Common

/-!
# Waiting for the reply to a request

`handle_get_message_generic` of `sysdeps/pmos/generic/filesystem.cpp`, on a kernel that interrupts
the wait at any moment.
-/

namespace Mlibc.Pmos

def eintr : Int := 4

def enomsg : Int := 42

def kernelToErrno (result : Int) : Int := -result

/-- The reply is queued, the call is interrupted with the reply queued or not, or the call fails. -/
inductive Event where
  | reply
  | interrupt (thenReply : Bool)
  | failure (result : Int)
  deriving DecidableEq

/-- The queue of the kernel, and what became of the right and of the reply. -/
structure Kernel where
  queued : Bool
  deleted : Bool
  consumed : Nat
  deriving DecidableEq

def Kernel.arrive (k : Kernel) (arrives : Bool) : Kernel :=
  { k with queued := k.queued || arrives }

def deleteReceiveRight (k : Kernel) : Int × Kernel :=
  if k.queued then (-enomsg, k) else (0, { k with deleted := true })

def readMessage (k : Kernel) : Kernel :=
  { k with queued := false, consumed := k.consumed + 1 }

/-- The loop and the reading of the message.  Behind the last event the kernel waits for the
reply. -/
def handleGetMessageGeneric (alwaysRestart : Bool) : List Event → Kernel → Except Int Unit × Kernel
  | [], k => (.ok (), readMessage (k.arrive true))
  | .reply :: events, k => handleGetMessageGeneric alwaysRestart events (k.arrive true)
  | .failure result :: _, k => (.error (kernelToErrno result), k)
  | .interrupt thenReply :: events, k =>
    let k := k.arrive thenReply
    if alwaysRestart then handleGetMessageGeneric alwaysRestart events k
    else
      let (result, k) := deleteReceiveRight k
      if result = -enomsg then handleGetMessageGeneric alwaysRestart events k
      else if result = 0 then (.error (-eintr), k)
      else (.error (kernelToErrno result), k)

def sent : Kernel := ⟨false, false, 0⟩

def AnsweredOnce (alwaysRestart : Bool) (outcome : Except Int Unit × Kernel) : Prop :=
  outcome.1 = .ok () ∧ outcome.2.consumed = 1 ∧ outcome.2.queued = false ∨
    alwaysRestart = false ∧ outcome.1 = .error eintr ∧ outcome.2 = ⟨false, true, 0⟩

variable {alwaysRestart : Bool} {events : List Event}

theorem handle_queued (noFailure : ∀ result, .failure result ∉ events) :
    handleGetMessageGeneric alwaysRestart events ⟨true, false, 0⟩ =
      (.ok (), ⟨false, false, 1⟩) := by
  induction events with
  | nil => rfl
  | cons event events ih =>
    simp only [List.mem_cons, not_or] at noFailure
    have later := ih fun result => (noFailure result).2
    cases event with
    | reply => exact later
    | interrupt thenReply => cases alwaysRestart <;> exact later
    | failure result => exact absurd rfl (noFailure result).1

theorem handle_answers (noFailure : ∀ result, .failure result ∉ events)
    (waits : alwaysRestart = true ∨ events.head? ≠ some (.interrupt false)) :
    handleGetMessageGeneric alwaysRestart events sent = (.ok (), ⟨false, false, 1⟩) := by
  induction events with
  | nil => rfl
  | cons event events ih =>
    simp only [List.mem_cons, not_or] at noFailure
    have noLater := fun result => (noFailure result).2
    cases event with
    | reply => exact handle_queued noLater
    | interrupt thenReply =>
      cases thenReply with
      | false =>
        obtain rfl : alwaysRestart = true := by simpa using waits
        exact ih noLater (.inl rfl)
      | true => cases alwaysRestart <;> exact handle_queued noLater
    | failure result => exact absurd rfl (noFailure result).1

/-- The request is answered once exactly if the wait is always restarted, or is not interrupted
before there is a reply. -/
theorem request_answered_iff (noFailure : ∀ result, .failure result ∉ events) :
    AnsweredOnce alwaysRestart (handleGetMessageGeneric alwaysRestart events sent) ↔
      alwaysRestart = true ∨ events.head? ≠ some (.interrupt false) := by
  constructor
  · intro answered
    by_contra lone
    simp only [not_or, Bool.not_eq_true, not_not, List.head?_eq_some_iff] at lone
    obtain ⟨rfl, rest, rfl⟩ := lone
    obtain ⟨succeeds, _⟩ | ⟨_, fails, _⟩ := answered
    · cases succeeds
    · cases fails
  · intro waits
    rw [handle_answers noFailure waits]
    exact .inl ⟨rfl, rfl, rfl⟩

theorem request_answered_race :
    AnsweredOnce false (handleGetMessageGeneric false [.interrupt true, .interrupt false] sent) :=
  (request_answered_iff (by simp)).mpr (by decide)

/-- The wait is interrupted before the reply comes. -/
theorem request_interrupted :
    handleGetMessageGeneric false [.interrupt false] sent = (.error (-4), ⟨false, true, 0⟩) ∧
      ¬AnsweredOnce false (handleGetMessageGeneric false [.interrupt false] sent) := by
  refine ⟨rfl, ?_⟩
  rintro (⟨succeeds, _⟩ | ⟨_, fails, _⟩)
  · cases succeeds
  · cases fails

end Mlibc.Pmos
