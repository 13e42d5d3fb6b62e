import Mlibc.BarrierWord

/-! # Counting the threads of a barrier -/

namespace Mlibc.Barrier

open Function Option

variable {τ : Type*} {cfg : Config}

/-- The four kinds of steps, by what they do to the word and to the record of the generations. -/
inductive StepKind (cfg : Config) (mem after : Shared τ) (pc next : Pc) : Prop where
  | quiet : after.waiting = mem.waiting → after.completed = mem.completed →
      after.entered = mem.entered → after.results = mem.results →
      (∀ gen, Serial gen next ↔ Serial gen pc) →
      StepKind cfg mem after pc next
  | enter (old : UInt32) : pc = .loop old → mem.waiting = old → ¬ cfg.IsLast old →
      after = { mem with waiting := old + 1, entered := enterGeneration mem } →
      next = .waitLoad (cfg.gen old) mem.completed →
      StepKind cfg mem after pc next
  | complete (old start : UInt32) : pc = .loop old → mem.waiting = old →
      cfg.IsLast old → cfg.nextGenStart old = some start →
      after = { mem with
        waiting := start
        completed := mem.completed + 1
        entered := enterGeneration mem } →
      next = .storeSeq (cfg.gen old) mem.completed →
      StepKind cfg mem after pc next
  | returns (result : Result) (gen : Nat) : pc = .leave result gen ∨ pc = .leaveWake result gen →
      after.waiting = mem.waiting → after.completed = mem.completed →
      after.entered = mem.entered →
      after.results = Function.update mem.results gen (result :: mem.results gen) →
      next = .outside → StepKind cfg mem after pc next

section Steps

variable {t : τ} {mem after : Shared τ} {pc next : Pc} {label : Label}

theorem iteration_kind {old : UInt32} (steps : iteration cfg mem old = (after, next)) :
    StepKind cfg mem after (.loop old) next := by
  unfold iteration at steps
  split_ifs at steps with last same same
  · split at steps
    · cases steps
      exact .quiet rfl rfl rfl rfl fun _ => .rfl
    · next start fits =>
      cases steps
      exact .complete old start rfl same last fits rfl rfl
  · split at steps <;> cases steps <;> exact .quiet rfl rfl rfl rfl fun _ => .rfl
  · cases steps
    exact .enter old rfl same last rfl rfl
  · cases steps
    exact .quiet rfl rfl rfl rfl fun _ => .rfl

theorem threadStep_kind [DecidableEq τ]
    (steps : threadStep cfg t mem pc label = some (after, next)) :
    StepKind cfg mem after pc next := by
  unfold threadStep at steps
  split at steps
  all_goals try (cases steps; exact .quiet rfl rfl rfl rfl fun _ => .rfl)
  · exact iteration_kind (some.inj steps)
  · have outcome := some.inj steps
    unfold checkSeq at outcome
    split_ifs at outcome <;> cases outcome <;> exact .quiet rfl rfl rfl rfl fun _ => .rfl
  · have outcome := some.inj steps
    unfold futexWait at outcome
    split_ifs at outcome <;> cases outcome <;> exact .quiet rfl rfl rfl rfl fun _ => .rfl
  · split_ifs at steps
    cases steps
    exact .quiet rfl rfl rfl rfl fun _ => .rfl
  · next result gen =>
    unfold leaveInside at steps
    split_ifs at steps <;> cases steps
    · refine .quiet rfl rfl rfl rfl fun _ => ?_
      cases result <;> exact .rfl
    · exact .returns result gen (.inl rfl) rfl rfl rfl rfl rfl
  · cases steps
    exact .returns _ _ (.inr rfl) rfl rfl rfl rfl rfl
  · cases steps

end Steps

/-! ### Counting the threads of a generation -/

/-- The waiters in the word are the threads of the current generation. -/
structure Counted (cfg : Config) (mem : Shared τ) : Prop where
  current : mem.entered mem.completed = mem.waiting.toNat % 2 ^ cfg.genShift
  below : mem.entered mem.completed < cfg.count.toNat
  past : ∀ gen < mem.completed, mem.entered gen = cfg.count.toNat
  future : ∀ gen > mem.completed, mem.entered gen = 0

theorem Counted.room {mem : Shared τ} (counted : Counted cfg mem)
    (notLast : ¬ cfg.IsLast mem.waiting) :
    mem.waiting.toNat % 2 ^ cfg.genShift + 1 < 2 ^ cfg.genShift := by
  have below := counted.below
  have large := cfg.large
  rw [counted.current] at below
  rw [cfg.isLast_iff] at notLast
  omega

theorem Counted.step {mem after : Shared τ} {pc next : Pc}
    (counted : Counted cfg mem) (kind : StepKind cfg mem after pc next) :
    Counted cfg after := by
  rcases counted with ⟨current, below, past, future⟩
  cases kind with
  | quiet waiting completed entered _ _ | returns _ _ _ waiting completed entered _ _ =>
    constructor <;> simp only [waiting, completed, entered] <;> assumption
  | enter old _ same notLast outcome _ =>
    subst same outcome
    have room := Counted.room ⟨current, below, past, future⟩ notLast
    rw [cfg.isLast_iff] at notLast
    refine ⟨?_, ?_, ?_, ?_⟩
    · simp only [enterGeneration, update_self, cfg.succ_mod room, current]
    · simp only [enterGeneration, update_self]
      omega
    · intro gen earlier
      simp only [enterGeneration, update_of_ne earlier.ne]
      exact past gen earlier
    · intro gen later
      simp only [enterGeneration, update_of_ne later.ne']
      exact future gen later
  | complete old start _ same last next outcome _ =>
    subst same outcome
    rw [cfg.isLast_iff, ← current] at last
    have fresh : enterGeneration mem (mem.completed + 1) = 0 := by
      rw [enterGeneration, update_of_ne (by omega)]
      exact future _ (Nat.lt_succ_self _)
    refine ⟨?_, ?_, ?_, ?_⟩
    · simp only [fresh, cfg.nextGenStart_mod next]
    · simp only [fresh]
      exact cfg.positive
    · intro gen earlier
      simp only [enterGeneration]
      rcases Nat.lt_succ_iff_lt_or_eq.mp earlier with before | rfl
      · rw [update_of_ne before.ne]
        exact past gen before
      · rw [update_self, last]
    · intro gen later
      simp only [enterGeneration]
      simp only at later
      rw [update_of_ne (by omega)]
      exact future gen (by omega)

/-! ### The serial thread of a generation -/

/-- One thread has returned as the serial thread of each completed generation, or the ghost data
names the one that is about to. -/
def SerialCounted (ghost : Nat → Option τ) (mem : Shared τ) : Prop :=
  ∀ gen, (mem.results gen).count .serialThread +
    (ghost gen).toList.length = if gen < mem.completed then 1 else 0

/-- A thread is about to return as the serial thread of the generations that the
ghost data assigns to it. -/
def SerialKnown (ghost : Nat → Option τ) (t : τ) (pc : Pc) : Prop :=
  ∀ gen, Serial gen pc ↔ ghost gen = some t

theorem serial_step [DecidableEq τ] {ghost : Nat → Option τ} {t : τ}
    {mem after : Shared τ} {pc next : Pc} (counted : SerialCounted ghost mem)
    (known : SerialKnown ghost t pc) (kind : StepKind cfg mem after pc next) :
    ∃ newGhost, SerialCounted newGhost after ∧ SerialKnown newGhost t next ∧
      ∀ other, other ≠ t → ∀ gen, newGhost gen = some other ↔ ghost gen = some other := by
  cases kind with
  | quiet _ completed _ results same =>
    refine ⟨ghost, ?_, fun gen => (same gen).trans (known gen), fun _ _ _ => .rfl⟩
    intro gen
    rw [results, completed]
    exact counted gen
  | enter old atPc _ _ outcome atNext =>
    subst atPc outcome atNext
    exact ⟨ghost, counted, known, fun _ _ _ => .rfl⟩
  | complete old start atPc _ _ _ outcome atNext =>
    subst atPc outcome atNext
    have unassigned : ghost mem.completed = none := by
      have none := counted mem.completed
      rw [if_neg (lt_irrefl _), Nat.add_eq_zero_iff, List.length_eq_zero_iff,
        toList_eq_nil_iff] at none
      exact none.2
    refine ⟨update ghost mem.completed (some t), ?_, ?_, ?_⟩
    · intro gen
      have before := counted gen
      by_cases same : gen = mem.completed
      · subst same
        rw [unassigned] at before
        simpa using before
      · simp only [update_of_ne same]
        rw [before]
        exact if_congr (by omega) rfl rfl
    · intro gen
      by_cases same : gen = mem.completed
      · simp [Serial, same]
      · rw [update_of_ne same, ← known gen]
        simp [Serial, Ne.symm same]
    · intro other apart gen
      by_cases same : gen = mem.completed
      · simp [same, unassigned, apart.symm]
      · rw [update_of_ne same]
  | returns result own atPc _ completed _ results atNext =>
    subst atNext
    cases result with
    | zero =>
      refine ⟨ghost, ?_, ?_, fun _ _ _ => .rfl⟩
      · intro gen
        rw [results, completed, ← counted gen]
        by_cases same : gen = own
        · simp [same]
        · rw [update_of_ne same]
      · intro gen
        rw [← known gen]
        rcases atPc with rfl | rfl <;> simp [Serial]
    | serialThread =>
      have assigned : ghost own = some t := by
        rw [← known own]
        rcases atPc with rfl | rfl <;> rfl
      refine ⟨update ghost own none, ?_, ?_, ?_⟩
      · intro gen
        rw [results, completed, ← counted gen]
        by_cases same : gen = own
        · simp [same, assigned]
        · simp only [update_of_ne same]
      · intro gen
        by_cases same : gen = own
        · simp [Serial, same]
        · rw [update_of_ne same, ← known gen]
          rcases atPc with rfl | rfl <;> simp [Serial, Ne.symm same]
      · intro other apart gen
        by_cases same : gen = own
        · simp [same, assigned, apart.symm]
        · rw [update_of_ne same]

theorem reachable_counted [DecidableEq τ] {s : ThreadState τ (Shared τ) Pc}
    (reach : (system τ cfg).interleaving.Reachable s) :
    Counted cfg s.shared ∧ ∃ ghost, SerialCounted ghost s.shared ∧
      ∀ t, SerialKnown ghost t (s.threads t) := by
  have invariant := ThreadSystem.reachable_invariant
    (fun (ghost : Nat → Option τ) mem => Counted cfg mem ∧ SerialCounted ghost mem)
    (fun ghost t _ pc => SerialKnown ghost t pc) ?_ ?_ reach
  · rcases invariant with ⟨ghost, ⟨counted, serial⟩, known⟩
    exact ⟨counted, ghost, serial, known⟩
  · rintro mem rfl
    refine ⟨fun _ => none, ⟨⟨by simp, cfg.positive, by simp, by simp⟩, ?_⟩, ?_⟩
    · intro gen
      simp
    · rintro t pc rfl gen
      simp [Serial]
  · rintro ghost s t label after next ⟨counted, serial⟩ known _ steps
    have kind := threadStep_kind steps
    rcases serial_step serial known kind with ⟨newGhost, newSerial, newKnown, others⟩
    refine ⟨newGhost, ⟨counted.step kind, newSerial⟩, newKnown, ?_⟩
    intro other apart otherPc otherKnown gen
    exact (otherKnown gen).trans (others other apart gen).symm

end Mlibc.Barrier
