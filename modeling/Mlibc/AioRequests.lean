import Mlibc.TransitionSystem

/-!
# Asynchronous requests

The clients and the worker of `sysdeps/linux/generic/posix/aio.cpp`, with one step for each access
to an `aiocb`.
-/

namespace Mlibc.Aio

open Function

/-- The states of an `aiocb`. -/
inductive OpState where
  | invalid
  | success
  | inProgress
  | cancelled
  deriving DecidableEq

/-- Who has the `AioContext` of a request: its client, the queues, or the worker that handles its
completion. -/
inductive Place where
  | nobody
  | client
  | queues
  | worker
  deriving DecidableEq

/-- The next access of the worker; before `publishing`, `outcome` has been stored as result and
error. -/
inductive Worker (ι : Type*) where
  | idle
  | storing (cb : ι) (res : Int)
  | publishing (cb : ι) (outcome : Int × Int)
  | notifying (cb : ι)
  deriving DecidableEq

/-- The counters tell how often a request was accepted and how often it left `in_progress`. -/
structure State (ι : Type*) where
  opState : ι → OpState
  result : ι → Int × Int
  place : ι → Place
  worker : Worker ι
  accepted : ι → Nat
  left : ι → Nat

/-- Clients submit and enqueue a request, or write an `aiocb` themselves; the worker takes a
completion and handles it. -/
inductive Label (ι : Type*) where
  | submit (cb : ι)
  | enqueue (cb : ι)
  | write (cb : ι) (opState : OpState) (result : Int × Int)
  | complete (cb : ι) (res : Int)
  | cancel
  | work

def scError (res : Int) : Int := if -4096 < res ∧ res < 0 then -res else 0

def operationResult (res : Int) : Int × Int :=
  if scError res = 0 then (res, 0) else (-1, scError res)

def completedState (outcome : Int × Int) : OpState :=
  if outcome.2 = 125 then .cancelled else .success

section System

variable {ι : Type*} [DecidableEq ι]

def work (s : State ι) : Option (State ι) :=
  match s.worker with
  | .idle => none
  | .storing cb res => some { s with
      result := update s.result cb (operationResult res)
      worker := .publishing cb (operationResult res) }
  | .publishing cb outcome =>
    if s.opState cb = .inProgress then some { s with
      opState := update s.opState cb (completedState outcome)
      place := update s.place cb .nobody
      left := update s.left cb (s.left cb + 1)
      worker := .notifying cb }
    else some { s with worker := .notifying cb }
  | .notifying _ => some { s with worker := .idle }

def step (s : State ι) : Label ι → Option (State ι)
  | .submit cb =>
    if s.opState cb = .inProgress then none
    else some { s with
      opState := update s.opState cb .inProgress
      result := update s.result cb (0, 0)
      place := update s.place cb .client
      accepted := update s.accepted cb (s.accepted cb + 1) }
  | .enqueue cb =>
    if s.place cb = .client then
      some { s with place := update s.place cb .queues }
    else none
  | .write cb opState result =>
    if s.opState cb = .inProgress ∨ opState = .inProgress then none
    else some { s with
      opState := update s.opState cb opState
      result := update s.result cb result }
  | .complete cb res =>
    if s.worker = .idle ∧ s.place cb = .queues then some { s with
      place := update s.place cb .worker
      worker := .storing cb res }
    else none
  | .cancel => if s.worker = .idle then some s else none
  | .work => work s

def start : State ι :=
  ⟨fun _ => .invalid, fun _ => (0, 0), fun _ => .nobody, .idle, fun _ => 0, fun _ => 0⟩

def system : TransitionSystem (State ι) (Label ι) where
  initial s := s = start
  step := step

def Worker.accesses : Worker ι → Option ι
  | .idle => none
  | .storing cb _ | .publishing cb _ | .notifying cb => some cb

def Worker.holds (cb : ι) : Worker ι → Prop
  | .idle | .notifying _ => False
  | .storing other _ | .publishing other _ => other = cb

structure Invariant (s : State ι) : Prop where
  progress : ∀ cb, s.opState cb = .inProgress ↔ s.place cb ≠ .nobody
  holds : ∀ cb, s.place cb = .worker ↔ s.worker.holds cb
  stored : ∀ cb outcome, s.worker = .publishing cb outcome → s.result cb = outcome
  counts : ∀ cb, s.accepted cb = s.left cb + if s.opState cb = .inProgress then 1 else 0

theorem completedState_ne (outcome : Int × Int) : completedState outcome ≠ .inProgress := by
  unfold completedState
  split_ifs <;> decide

variable {s : State ι}

theorem Invariant.work {next : State ι} (invariant : Invariant s)
    (steps : work s = some next) : Invariant next := by
  obtain ⟨progress, holds, stored, counts⟩ := invariant
  unfold Aio.work at steps
  split at steps
  · cases steps
  · next cb res isWorker =>
    cases steps
    rw [isWorker] at holds
    refine ⟨progress, holds, fun other outcome isPublishing => ?_, counts⟩
    cases isPublishing
    exact update_self ..
  · next cb outcome isWorker =>
    have isHeld : s.place cb = .worker := (holds cb).mpr (isWorker ▸ rfl)
    have inProgress : s.opState cb = .inProgress := (progress cb).mpr (by simp [isHeld])
    rw [if_pos inProgress] at steps
    cases steps
    refine ⟨fun other => ?_, fun other => ?_, nofun, fun other => ?_⟩
    · by_cases same : other = cb
      · subst same
        simp [completedState_ne]
      · simpa [same] using progress other
    · have held := holds other
      rw [isWorker] at held
      by_cases same : other = cb
      · simp [same, Worker.holds]
      · simpa [same, Worker.holds, Ne.symm same] using held
    · have counted := counts other
      by_cases same : other = cb
      · subst same
        simpa [completedState_ne, inProgress] using counted
      · simpa [same] using counted
  · next cb isWorker =>
    cases steps
    rw [isWorker] at holds
    exact ⟨progress, holds, nofun, counts⟩

theorem Invariant.step {next : State ι} {label : Label ι} (invariant : Invariant s)
    (steps : step s label = some next) : Invariant next := by
  obtain ⟨progress, holds, stored, counts⟩ := invariant
  cases label with
  | submit cb =>
    simp only [Aio.step] at steps
    split_ifs at steps with inProgress
    cases steps
    constructor
    all_goals grind [Worker.holds]
  | enqueue cb =>
    simp only [Aio.step] at steps
    split_ifs at steps with isClient
    cases steps
    constructor
    all_goals grind
  | write cb opState result =>
    simp only [Aio.step] at steps
    split_ifs at steps with busy
    cases steps
    constructor
    all_goals grind [Worker.holds]
  | complete cb res =>
    simp only [Aio.step] at steps
    split_ifs at steps with ready
    cases steps
    constructor
    all_goals grind [Worker.holds]
  | cancel =>
    simp only [Aio.step] at steps
    split_ifs at steps
    cases steps
    exact ⟨progress, holds, stored, counts⟩
  | work => exact Invariant.work ⟨progress, holds, stored, counts⟩ steps

theorem invariant_of_reachable (reach : system.Reachable s) : Invariant s := by
  refine reach.invariant ?_ fun _ _ _ invariant _ steps => invariant.step steps
  rintro _ rfl
  exact ⟨by simp [start], by simp [start, Worker.holds], nofun, by simp [start]⟩

/-- Every accepted request leaves `in_progress` once, with its outcome stored. -/
structure Belongs (s : State ι) : Prop where
  once : ∀ cb, s.accepted cb = s.left cb + if s.opState cb = .inProgress then 1 else 0
  completed : (∀ cb res, step s (.enqueue cb) = none ∧ step s (.complete cb res) = none) →
    step s .work = none → ∀ cb, s.left cb = s.accepted cb
  stored : ∀ cb outcome, s.worker = .publishing cb outcome →
    s.opState cb = .inProgress ∧ s.result cb = outcome
  released : ∀ cb, s.worker.accesses = some cb → s.opState cb = .inProgress

theorem Invariant.completed (invariant : Invariant s)
    (stuck : ∀ cb res, Aio.step s (.enqueue cb) = none ∧ Aio.step s (.complete cb res) = none)
    (idle : Aio.step s .work = none) (cb : ι) : s.left cb = s.accepted cb := by
  have isIdle : s.worker = .idle := by
    change Aio.work s = none at idle
    unfold Aio.work at idle
    split at idle
    · assumption
    all_goals grind
  have notHeld := invariant.holds cb
  obtain ⟨enqueue, complete⟩ := stuck cb 0
  rw [isIdle] at notHeld
  have nobody : s.place cb = .nobody := by
    cases isPlace : s.place cb with
    | nobody => rfl
    | client => simp [Aio.step, isPlace] at enqueue
    | queues => simp [Aio.step, isPlace, isIdle] at complete
    | worker => exact (notHeld.mp isPlace).elim
  have notInProgress := mt (invariant.progress cb).mp (not_not.mpr nobody)
  rw [invariant.counts cb, if_neg notInProgress, Nat.add_zero]

/-- A state is as promised unless the worker still has to read the `aio_sigevent` of a request that
it has published. -/
theorem request_belongs_iff {s : State ι} (reach : system.Reachable s) :
    Belongs s ↔ ∀ cb, s.worker = .notifying cb → s.opState cb = .inProgress := by
  have invariant := invariant_of_reachable reach
  have held (cb : ι) (holds : s.worker.holds cb) : s.opState cb = .inProgress := by
    rw [invariant.progress, (invariant.holds cb).mpr holds]
    exact nofun
  constructor
  · intro belongs cb isWorker
    exact belongs.released cb (by rw [isWorker]; rfl)
  intro resubmitted
  refine ⟨invariant.counts, invariant.completed, fun cb outcome isWorker => ?_, fun cb access => ?_⟩
  · exact ⟨held cb (by rw [isWorker]; rfl), invariant.stored cb outcome isWorker⟩
  cases isWorker : s.worker with
  | idle => simp [isWorker, Worker.accesses] at access
  | storing | publishing =>
    rw [isWorker] at access
    exact held cb (by rw [isWorker]; exact Option.some.inj access)
  | notifying other =>
    rw [isWorker] at access
    exact resubmitted cb (isWorker.trans (congrArg _ (Option.some.inj access)))

end System

def completion : List (Label Unit) := [.submit (), .enqueue (), .complete () 7, .work]

theorem request_belongs_stored :
    ∃ s, (system (ι := Unit)).run (fun _ _ => True) start completion = some s ∧
      s.result () = (7, 0) ∧ Belongs s :=
  ⟨_, rfl, rfl, (request_belongs_iff (@TransitionSystem.reachable_of_run _ _ system
    (fun _ _ => True) _ start _ completion rfl rfl)).mpr nofun⟩

/-- The worker still reads an `aiocb` that it has published. -/
theorem request_not_belongs :
    ∃ s, (system (ι := Unit)).run (fun _ _ => True) start (completion ++ [.work]) = some s ∧
      s.opState () = .success ∧ ¬Belongs s := by
  refine ⟨_, rfl, rfl, fun belongs => ?_⟩
  cases belongs.released () rfl

end Mlibc.Aio
