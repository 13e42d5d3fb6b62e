import Mathlib.Data.UInt
import Mlibc.ThreadCondWait

/-! # Condition variables and the wrap of their counter -/

namespace Mlibc.ThreadCond

open UInt32

def Pc.waiter : Pc → Option Waiter
  | .waitUnlock waiter | .waitFutex waiter | .waitSleep waiter | .waitLock waiter _
  | .waitCheck waiter _ => some waiter
  | _ => none

def Snapshot (signals : Nat) (waiter : Waiter) : Prop :=
  waiter.seq = UInt32.ofNat waiter.since ∧ waiter.since ≤ signals

section Steps

variable {τ : Type*} {mem after : Shared τ} {own next : Local} {waiter : Waiter}

theorem waitStart_waiter {abstime : Option Timespec}
    (waits : (waitStart mem own abstime).pc.waiter = some waiter) :
    waiter.seq = mem.seq ∧ waiter.since = mem.signals := by
  unfold waitStart at waits
  split_ifs at waits
  · cases waits
  · cases waits
    exact ⟨rfl, rfl⟩

theorem waitCheck_waiter {e : Option Errno} {before : Waiter}
    (waits : (waitCheck mem own before e).pc.waiter = some waiter) :
    before = waiter := by
  unfold waitCheck at waits
  split at waits <;> try split_ifs at waits
  all_goals cases waits
  all_goals rfl

theorem next_waiter {afterLock : AfterLock} {before : Waiter}
    (waits : (afterLock.next before).waiter = some waiter) : before = waiter := by
  cases afterLock with
  | check e => exact Option.some.inj waits
  | fail err => cases waits

variable [DecidableEq τ] {kind : ThreadMutex.Kind} {ids : ThreadIds τ} {t : τ} {label : Label τ}

variable (steps : threadStep kind ids t mem own label = some (after, next))

include steps

theorem threadStep_seq : after.seq = mem.seq ∧ after.signals = mem.signals ∨
      after.seq = mem.seq + 1 ∧ after.signals = mem.signals + 1 := by
  unfold threadStep at steps
  split at steps <;> grind [mutexStep, futexWait, leaveQueue]

theorem threadStep_waiter (waits : next.pc.waiter = some waiter) :
    own.pc.waiter = some waiter ∨ waiter.seq = mem.seq ∧ waiter.since = mem.signals := by
  unfold threadStep at steps
  split at steps <;> grind [mutexStep, futexWait, leaveQueue, callLock, Pc.waiter, waitStart_waiter,
      waitCheck_waiter, next_waiter]

end Steps

theorem reachable_snapshot {τ : Type*} [DecidableEq τ] {kind : ThreadMutex.Kind} {ids : ThreadIds τ}
    {s : ThreadState τ (Shared τ) Local}
    (reach : (system kind ids).interleaving.Reachable s) :
    s.shared.seq = ofNat s.shared.signals ∧ ∀ t waiter, (s.threads t).pc.waiter = some waiter →
        Snapshot s.shared.signals waiter := by
  have invariant := ThreadSystem.reachable_invariant
    (fun (_ : Unit) (mem : Shared τ) => mem.seq = ofNat mem.signals)
    (fun _ _ mem own => ∀ waiter, own.pc.waiter = some waiter →
      Snapshot mem.signals waiter) ?_ ?_ reach
  · rcases invariant with ⟨-, seq, waiters⟩
    exact ⟨seq, waiters⟩
  · rintro mem rfl
    refine ⟨(), rfl, ?_⟩
    rintro t own rfl waiter waits
    cases waits
  intro _ s t label mem own seq waiters _ steps
  have advances : mem.seq = ofNat mem.signals ∧ s.shared.signals ≤ mem.signals := by
    rcases threadStep_seq steps with ⟨sameSeq, same⟩ | ⟨nextSeq, next⟩
    · rw [sameSeq, same, seq]
      exact ⟨rfl, le_rfl⟩
    · rw [nextSeq, next, seq, ofNat_add]
      exact ⟨rfl, Nat.le_succ _⟩
  refine ⟨(), advances.1, ?_, ?_⟩
  · intro waiter waits
    rcases threadStep_waiter steps waits with before | ⟨snapshot, since⟩
    · have known := waiters waiter before
      exact ⟨known.1, known.2.trans advances.2⟩
    · refine ⟨?_, since.le.trans advances.2⟩
      rw [snapshot, since, seq]
  · intro other _ otherOwn otherWaiters waiter waits
    have known := otherWaiters waiter waits
    exact ⟨known.1, known.2.trans advances.2⟩

theorem ofNat_lt_ofNat_iff {since signals : Nat} (later : since < signals)
    (bound : signals < since + 2 ^ 32) :
    ofNat since < ofNat signals ↔ (ofNat since).toNat + (signals - since) < 2 ^ 32 := by
  rw [lt_iff_toNat_lt, toNat_ofNat', toNat_ofNat']
  omega

variable {τ : Type*} [DecidableEq τ]

/-- A waiter that checks the counter, with between one and 2^32 - 1 signals since its snapshot,
returns zero exactly if the counter has not wrapped since; otherwise it waits again or fails the
`__ensure`. -/
theorem threadCond_returns_iff_not_wrapped (kind : ThreadMutex.Kind) (ids : ThreadIds τ)
    (s : ThreadState τ (Shared τ) Local)
    (reach : (system kind ids).interleaving.Reachable s) :
    (∀ t waiter e, (s.threads t).pc = .waitCheck waiter e → e = none ∨ e = some .eagain →
      waiter.since < s.shared.signals →
      s.shared.signals < waiter.since + 2 ^ 32 →
      ∃ own, (system kind ids).threadStep t .run s.shared (s.threads t) = some (s.shared, own) ∧
        (own.pc = .outside none ↔ waiter.seq.toNat + (s.shared.signals - waiter.since) < 2 ^ 32) ∧
        (own.pc = .outside none ∨ own.pc = .waitUnlock waiter ∨
          own.pc = .ensureFailed .seqAdvanced)) ∧
    ((system kind ids).interleaving.ReachableVia (NestsBelowLimit kind) s →
      ∀ t site, (s.threads t).pc = .ensureFailed site → site = .seqAdvanced) := by
  rcases reachable_snapshot reach with ⟨seq, snapshots⟩
  refine ⟨?_, ?_⟩
  · intro t waiter e atCheck woken later bound
    have snapshot := (snapshots t waiter (by rw [atCheck]; rfl)).1
    have compare := ofNat_lt_ofNat_iff later bound
    rw [← snapshot, ← seq] at compare
    refine ⟨waitCheck s.shared (s.threads t) waiter e, ?_, ?_⟩
    · simp only [system, threadStep, atCheck]
    rw [← compare]
    by_cases advanced : waiter.seq < s.shared.seq
    · rcases woken with rfl | rfl <;> simp [waitCheck, advanced]
    · rcases woken with rfl | rfl <;> simp [waitCheck, advanced, callUnlock]
  · intro limited t site failed
    have known := reachable_waitKnown limited t
    simpa only [WaitKnown, failed] using known

abbrev pair : TransitionSystem (ThreadState Bool (Shared Bool) Local) (Bool × Label Bool) :=
  (system .normal .two).interleaving

def signalled (signals : Nat) : ThreadState Bool (Shared Bool) Local :=
  ⟨⟨⟨0, 0, ∅⟩, UInt32.ofNat signals, ∅, signals⟩, fun _ => ⟨⟨.outside none, 0⟩, .outside none⟩⟩

def waitLabels : List (Bool × Label Bool) :=
  [(false, .mutex .lock), (false, .mutex .run), (false, .mutex .run),
    (false, .wait none), (false, .run), (false, .mutex .run), (false, .mutex .run),
    (false, .mutex .run), (false, .mutex .run), (false, .run)]

def relockLabels : List (Bool × Label Bool) :=
  [(false, .mutex .run), (false, .mutex .run), (false, .run)]

def wakeLabels : List (Bool × Label Bool) :=
  waitLabels ++ [(false, .run), (true, .signal), (true, .run), (true, .wake false),
    (false, .run)] ++ relockLabels

def overtakeLabels : List (Bool × Label Bool) :=
  waitLabels ++ [(true, .signal), (true, .run), (true, .run), (false, .run)] ++ relockLabels

theorem threadCond_returns_after_signal : ∃ s waiter own, pair.Reachable s ∧
      (s.threads false).pc = .waitCheck waiter none ∧ waiter.seq = 0 ∧
      (system .normal .two).threadStep false .run s.shared (s.threads false) =
        some (s.shared, own) ∧ own.pc = .outside none := by
  have woken : ∃ s ∈ pair.run (fun _ _ => True) (signalled 0) wakeLabels,
      (s.threads false).pc = .waitCheck ⟨false, 0, 0⟩ none ∧ s.shared.signals = 1 :=
    ⟨_, rfl, rfl, rfl⟩
  obtain ⟨s, reach, atCheck, signals⟩ :=
    TransitionSystem.exists_reachable woken ⟨rfl, fun _ => rfl⟩
  have returns := (threadCond_returns_iff_not_wrapped .normal .two s reach).1
    false ⟨false, 0, 0⟩ none atCheck (.inl rfl) (by simp [signals]) (by simp [signals])
  rcases returns with ⟨own, steps, zero, -⟩
  exact ⟨s, _, own, reach, atCheck, rfl, steps, zero.mpr (by simp [signals])⟩

/-! ### The counter wraps -/

theorem signalled_reachable (signals : Nat) : pair.Reachable (signalled signals) := by
  induction signals with
  | zero => exact .initial ⟨rfl, fun _ => rfl⟩
  | succ signals ih =>
    apply ih.run
    show pair.run (fun _ _ => True) (signalled signals)
      [(true, .signal), (true, .run), (true, .run)] = some (signalled (signals + 1))
    simp [TransitionSystem.run, ThreadSystem.interleaving, system, signalled, threadStep,
      Local.mutexResult]

/-- At 2^32 - 1, a woken waiter waits again, and one that did not sleep fails its `__ensure`. -/
theorem threadCond_wrap_misses_signal : (∃ s own, pair.Reachable s ∧ s.shared.signals = 2 ^ 32 ∧
      (s.threads false).pc = .waitCheck ⟨false, 2 ^ 32 - 1, 2 ^ 32 - 1⟩ none ∧
      (system .normal .two).threadStep false .run s.shared (s.threads false) =
        some (s.shared, own) ∧ own.pc = .waitUnlock ⟨false, 2 ^ 32 - 1, 2 ^ 32 - 1⟩) ∧
    (∃ s own, pair.Reachable s ∧ s.shared.signals = 2 ^ 32 ∧
      (s.threads false).pc = .waitCheck ⟨false, 2 ^ 32 - 1, 2 ^ 32 - 1⟩ (some .eagain) ∧
      (system .normal .two).threadStep false .run s.shared (s.threads false) =
        some (s.shared, own) ∧ own.pc = .ensureFailed .seqAdvanced) := by
  have start := signalled_reachable (2 ^ 32 - 1)
  have woken : ∃ s, pair.run (fun _ _ => True) (signalled (2 ^ 32 - 1)) wakeLabels =
      some s ∧ s.shared.signals = 2 ^ 32 ∧
      (s.threads false).pc = .waitCheck ⟨false, 2 ^ 32 - 1, 2 ^ 32 - 1⟩ none ∧
      ∃ own, (system .normal .two).threadStep false .run s.shared
          (s.threads false) = some (s.shared, own) ∧
        own.pc = .waitUnlock ⟨false, 2 ^ 32 - 1, 2 ^ 32 - 1⟩ :=
    ⟨_, rfl, rfl, rfl, _, rfl, rfl⟩
  have overtaken : ∃ s, pair.run (fun _ _ => True) (signalled (2 ^ 32 - 1))
      overtakeLabels = some s ∧ s.shared.signals = 2 ^ 32 ∧
      (s.threads false).pc = .waitCheck ⟨false, 2 ^ 32 - 1, 2 ^ 32 - 1⟩ (some .eagain) ∧
      ∃ own, (system .normal .two).threadStep false .run s.shared
          (s.threads false) = some (s.shared, own) ∧
        own.pc = .ensureFailed .seqAdvanced :=
    ⟨_, rfl, rfl, rfl, _, rfl, rfl⟩
  rcases woken with ⟨s, runs, signals, atCheck, own, steps, again⟩
  rcases overtaken with ⟨state', runs', signals', atCheck', own', steps', failed⟩
  exact ⟨⟨s, own, start.run runs, signals, atCheck, steps, again⟩,
    ⟨state', own', start.run runs', signals', atCheck', steps', failed⟩⟩

end Mlibc.ThreadCond
