import Mlibc.Semaphore

/-! # Runs of a semaphore -/

namespace Mlibc.Semaphore

open FutexWord Function ThreadSystem

/-- The word counts the units, and a thread that sleeps although there is a unit has a post that
is about to wake it. -/
structure Invariant {τ : Type*} (initialCount : UInt32) (s : State τ) : Prop where
  counted : count s.shared.word + s.shared.waits = initialCount.toNat + s.shared.posts
  knows : ∀ t, Knows s.shared.word (s.threads t)
  announced : s.shared.asleep.Nonempty → HasWaiters s.shared.word
  woken : s.shared.asleep.Nonempty → 0 < count s.shared.word → ∃ t, s.threads t = .wake

section Runs

variable {τ : Type*} [DecidableEq τ] {initialCount : UInt32} {t : τ} {s : State τ}

theorem knows_update {word : UInt32} {next : Pc} (knows : ∀ t, Knows s.shared.word (s.threads t))
    (kept : HasWaiters s.shared.word → HasWaiters word) (own : Knows word next) (other : τ) :
    Knows word (update s.threads t next other) := by
  by_cases same : other = t
  · rwa [same, update_self]
  rw [update_of_ne same]
  have known := knows other
  cases isPc : s.threads other <;> simp only [isPc] at known ⊢ <;> first
    | exact known.imp_right kept
    | exact known

theorem waker_update {threads : τ → Pc} (next : Pc)
    (notWake : threads t ≠ .wake) (waker : ∃ other, threads other = .wake) :
    ∃ other, update threads t next other = .wake := by
  obtain ⟨other, isWaker⟩ := waker
  have apart : other ≠ t := fun same => notWake (same ▸ isWaker)
  exact ⟨other, (update_of_ne apart ..).trans isWaker⟩

theorem invariant_effect {after : Shared τ} {next : Pc} (invariant : Invariant initialCount s)
    (effect : Effect s.shared (s.threads t) after next) :
    Invariant initialCount ⟨after, update s.threads t next⟩ := by
  have counted := invariant.counted
  cases effect with
  | quiet notWake fewer knows refuses =>
    refine ⟨counted, knows_update invariant.knows id knows, ?_, ?_⟩
    · exact fun ne => invariant.announced (ne.mono fewer)
    · exact fun ne units =>
        waker_update next notWake (invariant.woken (ne.mono fewer) units)
  | sleeps notWake noUnit announced =>
    refine ⟨counted, knows_update invariant.knows id ⟨noUnit, announced⟩, fun _ => announced, ?_⟩
    exact fun _ units => absurd noUnit units.ne'
  | announces notWake noUnit knows accepts =>
    have bit : HasWaiters waitersBit := by decide
    have zero : count waitersBit = 0 := by decide
    refine ⟨?_, knows_update invariant.knows (fun _ => bit) knows, fun _ => bit, ?_⟩
    · rw [noUnit] at counted
      rw [zero]
      exact counted
    · exact fun _ units => absurd zero units.ne'
  | takes notWake units =>
    have taken := take_toNat units
    rw [count_eq] at counted units
    have kept : HasWaiters s.shared.word → HasWaiters (s.shared.word - 1) := by
      rw [hasWaiters_iff, hasWaiters_iff]
      omega
    refine ⟨?_, knows_update invariant.knows kept trivial,
      fun ne => kept (invariant.announced ne), fun ne _ => ?_⟩
    · simp only [count_eq]
      omega
    · rw [← count_eq] at units
      exact waker_update _ notWake (invariant.woken ne units)
  | @posts word notWake raised room =>
    rw [count_eq] at counted room
    have kept : HasWaiters s.shared.word → HasWaiters word := by
      rw [hasWaiters_iff, hasWaiters_iff]
      omega
    refine ⟨?_, knows_update invariant.knows kept (by split_ifs <;> trivial),
      fun ne => kept (invariant.announced ne), fun ne _ => ⟨t, ?_⟩⟩
    · simp only [count_eq]
      omega
    · rw [if_pos (invariant.announced ne)]
      exact update_self ..
  | wakes =>
    refine ⟨counted, knows_update invariant.knows id trivial, ?_, ?_⟩ <;>
      exact fun ne => absurd ne Finset.not_nonempty_empty

theorem invariant_of_reachable (reach : (system τ initialCount).interleaving.Reachable s) :
    Invariant initialCount s := by
  refine reach.invariant ?_ ?_
  · rintro ⟨_, threads⟩ ⟨⟨word, initialized, rfl⟩, starts⟩
    unfold semInit at initialized
    split_ifs at initialized with tooLarge
    cases initialized
    refine ⟨?_, ?_, ?_, ?_⟩
    · have small : ¬2 ^ 31 - 1 < initialCount.toNat := fun large =>
        tooLarge (UInt32.lt_iff_toNat_lt.mpr large)
      simp only [count_eq]
      omega
    · intro t
      rw [starts t]
      trivial
    all_goals exact fun ne => absurd ne Finset.not_nonempty_empty
  · intro s label next invariant _ steps
    obtain ⟨after, own, stepped, rfl⟩ := interleaving_step steps
    exact invariant_effect invariant (effect_of_step (invariant.knows label.1) stepped)

/-- The word counts the initial units, the posts and the waits, and a thread that sleeps although
there is a unit has a post that is about to wake it. -/
theorem semaphore_counts {s : State τ} (reach : (system τ initialCount).interleaving.Reachable s) :
    count s.shared.word + s.shared.waits = initialCount.toNat + s.shared.posts ∧
      count s.shared.word ≤ semValueMax.toNat ∧
      (∀ t ∈ s.shared.asleep, 0 < count s.shared.word → ∃ poster, s.threads poster = .wake) ∧
      ∀ t label next, (system τ initialCount).interleaving.step s (t, label) = some next →
        next.shared.waits = s.shared.waits + ((s.threads t).acquires (next.threads t)).toNat ∧
          next.shared.posts =
            s.shared.posts + ((s.threads t).publishes (next.threads t)).toNat := by
  have invariant := invariant_of_reachable reach
  refine ⟨invariant.counted, ?_, fun t asleep => invariant.woken ⟨t, asleep⟩, ?_⟩
  · rw [count_eq, show semValueMax.toNat = 2 ^ 31 - 1 from rfl]
    omega
  · intro t label next steps
    obtain ⟨after, own, stepped, rfl⟩ := interleaving_step steps
    simp only [update_self]
    exact recorded_of_step stepped

theorem semaphore_counts_asleep : ∃ s : State Bool, (system Bool 0).interleaving.Reachable s ∧
      false ∈ s.shared.asleep ∧ count s.shared.word = 1 ∧
      ∃ poster, s.threads poster = .wake := by
  have observed : ∃ s ∈ (system Bool 0).interleaving.run (fun _ _ => True)
      ⟨⟨0, ∅, 0, 0⟩, fun _ => .outside none⟩
      [(false, .semWait), (false, .run), (false, .run), (false, .run), (false, .run), (false, .run),
        (true, .semPost), (true, .run), (true, .run)],
      false ∈ s.shared.asleep ∧ count s.shared.word = 1 := by
    decide +kernel
  obtain ⟨s, reach, asleep, one⟩ :=
    TransitionSystem.exists_reachable observed ⟨⟨_, rfl, rfl⟩, fun _ => rfl⟩
  obtain ⟨_, _, woken, _⟩ := semaphore_counts reach
  exact ⟨s, reach, asleep, one, woken false asleep (one ▸ Nat.one_pos)⟩

/-! ### Refusals -/

/-- The states during a call of `sem_trywait`, and the one behind its return, while there is a unit.
-/
inductive Calling (initialCount : UInt32) (t : τ) (begins : State τ) : State τ → Prop where
  | call {next : State τ} (units : 0 < count begins.shared.word)
      (steps : (system τ initialCount).interleaving.step begins (t, .semTrywait) = some next) :
      Calling initialCount t begins next
  | step {s next : State τ} {label : τ × Label} (calling : Calling initialCount t begins s)
      (inside : ∀ err, s.threads t ≠ .outside err)
      (units : 0 < count s.shared.word)
      (steps : (system τ initialCount).interleaving.step s label = some next) :
      Calling initialCount t begins next

theorem Calling.units {begins s : State τ}
    (calling : Calling initialCount t begins s) : 0 < count begins.shared.word := by
  induction calling with
  | call units _ => exact units
  | step _ _ _ _ ih => exact ih

/-- A call of `sem_trywait` during which there is always a unit does not fail, and takes one. -/
def TakesUnit (initialCount : UInt32) (t : τ) (begins : State τ) : Prop :=
  ∀ s, Calling initialCount t begins s → 0 < count s.shared.word →
    (∀ err, s.threads t = .outside err → err = none) ∧
      ∀ next, (system τ initialCount).interleaving.step s (t, .run) = some next →
        next.threads t = .outside none →
        count next.shared.word + 1 = count s.shared.word

def Pc.Trying (pc : Pc) : Prop := pc = .tryLoad ∨ ∃ expected, pc = .tryTake expected

theorem trying_step {mem after : Shared τ} {pc next : Pc} {label : Label}
    (trying : pc.Trying) (steps : threadStep t mem label pc = some (after, next)) :
    next.Trying ∨ next = .outside (some .eagain) ∨
      next = .outside none ∧ after.word = mem.word - 1 := by
  obtain rfl | ⟨expected, rfl⟩ := trying <;> cases label <;> simp only [threadStep] at steps
  case inl.run =>
    split_ifs at steps <;> cases steps
    · exact .inr (.inl rfl)
    · exact .inl (.inr ⟨_, rfl⟩)
  case inr.run =>
    split_ifs at steps with same <;> cases steps
    · exact .inr (.inr ⟨rfl, by rw [same]⟩)
    · exact .inl (.inl rfl)
  all_goals cases steps

theorem calling_invariant {begins s : State τ}
    (reach : (system τ initialCount).interleaving.Reachable begins)
    (clear : ¬HasWaiters begins.shared.word) (calling : Calling initialCount t begins s) :
    (system τ initialCount).interleaving.Reachable s ∧ ¬HasWaiters s.shared.word ∧
      ((s.threads t).Trying ∨ s.threads t = .outside none) := by
  induction calling with
  | call units steps =>
    refine ⟨reach.step trivial steps, ?_⟩
    obtain ⟨after, own, stepped, rfl⟩ := interleaving_step steps
    cases isPc : begins.threads t <;> rw [isPc] at stepped <;> cases stepped
    exact ⟨clear, .inl (.inl (update_self ..))⟩
  | @step s next label calling inside units steps ih =>
    obtain ⟨reached, clear, shape⟩ := ih
    refine ⟨reached.step trivial steps, ?_⟩
    obtain ⟨after, own, stepped, rfl⟩ := interleaving_step steps
    have knows := (invariant_of_reachable reached).knows label.1
    obtain ⟨stillClear, accepts⟩ := (effect_of_step knows stepped).clear units clear
    refine ⟨stillClear, ?_⟩
    have trying := shape.resolve_right (inside none)
    by_cases same : t = label.1
    · subst same
      simp only [update_self]
      obtain again | refused | ⟨ret, _⟩ := trying_step trying stepped
      · exact .inl again
      · exact absurd refused accepts
      · exact .inr ret
    · simp only [update_of_ne same]
      exact .inl trying

theorem not_takesUnit {begins : State τ} {err : Option Errno}
    (outside : begins.threads t = .outside err) (bit : HasWaiters begins.shared.word)
    (units : 0 < count begins.shared.word) : ¬TakesUnit initialCount t begins := by
  intro takes
  have calls : (system τ initialCount).interleaving.step begins (t, .semTrywait) =
      some ⟨begins.shared, update begins.threads t .tryLoad⟩ := by
    simp [interleaving, system, threadStep, outside]
  have refuses : (system τ initialCount).interleaving.step
      ⟨begins.shared, update begins.threads t .tryLoad⟩ (t, .run) =
      some ⟨begins.shared, update begins.threads t (.outside (some .eagain))⟩ := by
    simp [interleaving, system, threadStep, bit]
  have calling := (Calling.call units calls).step (by simp) units refuses
  have failed := (takes _ calling units).1 (some .eagain) (update_self ..)
  cases failed

/-- A call of `sem_trywait` never refuses a unit exactly from the states in which no unit is behind
the topmost bit. -/
theorem trywait_takes_iff {t : τ} {begins : State τ}
    (reach : (system τ initialCount).interleaving.Reachable begins) {err : Option Errno}
    (outside : begins.threads t = .outside err) :
    TakesUnit initialCount t begins ↔
      ¬(HasWaiters begins.shared.word ∧ 0 < count begins.shared.word) := by
  constructor
  · exact fun takes ⟨bit, units⟩ => not_takesUnit outside bit units takes
  intro noUnit s calling units
  have clear : ¬HasWaiters begins.shared.word := fun bit => noUnit ⟨bit, calling.units⟩
  obtain ⟨reached, _, shape⟩ := calling_invariant reach clear calling
  refine ⟨?_, ?_⟩
  · intro err ret
    obtain (load | ⟨_, take⟩) | outside := shape
    · cases load.symm.trans ret
    · cases take.symm.trans ret
    · cases outside.symm.trans ret
      rfl
  intro next steps ret
  obtain ⟨after, own, stepped, rfl⟩ := interleaving_step steps
  simp only [update_self] at ret
  subst ret
  obtain trying | outside := shape
  · obtain (load | ⟨_, take⟩) | refused | ⟨_, taken⟩ := trying_step trying stepped
    · cases load
    · cases take
    · cases refused
    have lowered := take_toNat units
    rw [count_eq] at units
    simp only [taken, count_eq]
    omega
  · rw [outside] at stepped
    cases stepped

theorem trywait_takes_second : ∃ s : State Bool, (system Bool 1).interleaving.Reachable s ∧
    s.shared.waits = 1 ∧ s.shared.posts = 1 ∧ TakesUnit 1 true s := by
  have observed : ∃ s ∈ (system Bool 1).interleaving.run (fun _ _ => True)
      ⟨⟨1, ∅, 0, 0⟩, fun _ => .outside none⟩
      [(false, .semWait), (false, .run), (false, .run), (true, .semPost), (true, .run),
        (true, .run)],
      s.shared.waits = 1 ∧ s.shared.posts = 1 ∧ s.threads true = .outside none ∧
        s.shared.word = 1 := by
    decide +kernel
  obtain ⟨s, reach, waits, posts, outside, word⟩ :=
    TransitionSystem.exists_reachable observed ⟨⟨_, rfl, rfl⟩, fun _ => rfl⟩
  exact ⟨s, reach, waits, posts, (trywait_takes_iff reach outside).mpr (word ▸ by decide)⟩

/-- One thread has waited at zero and was served; the unit of a second post is refused. -/
theorem trywait_refuses_unit : ∃ s : State Bool, (system Bool 0).interleaving.Reachable s ∧
      (∀ t, s.threads t = .outside none) ∧ count s.shared.word = 1 ∧
      ¬TakesUnit 0 true s := by
  have observed : ∃ s ∈ (system Bool 0).interleaving.run (fun _ _ => True)
      ⟨⟨0, ∅, 0, 0⟩, fun _ => .outside none⟩
      [(false, .semWait), (false, .run), (false, .run), (false, .run), (false, .run), (false, .run),
        (true, .semPost), (true, .run), (true, .run), (true, .run), (true, .semPost), (true, .run),
        (true, .run), (true, .run), (false, .run), (false, .run), (false, .run)],
      (∀ t, s.threads t = .outside none) ∧ s.shared.word = waitersBit + 1 := by
    decide +kernel
  obtain ⟨s, reach, outside, word⟩ :=
    TransitionSystem.exists_reachable observed ⟨⟨_, rfl, rfl⟩, fun _ => rfl⟩
  have one : count (waitersBit + 1) = 1 := by decide
  refine ⟨s, reach, outside, word ▸ one, ?_⟩
  exact not_takesUnit (outside true) (word ▸ by decide) (word ▸ one ▸ Nat.one_pos)

end Runs

end Mlibc.Semaphore
