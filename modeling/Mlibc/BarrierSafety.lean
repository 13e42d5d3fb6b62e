import Mlibc.BarrierCounts

/-! # Safety of barriers -/

namespace Mlibc.Barrier

open UInt32 TransitionSystem Option

variable {τ : Type*} {cfg : Config}

/-- The generation in the word is the completed one, and `__mlibc_seq` follows it. -/
structure Published (cfg : Config) (mem : Shared τ) : Prop where
  generation : cfg.count ≠ 1 → mem.waiting.toNat / 2 ^ cfg.genShift = mem.completed
  seq : cfg.count ≠ 1 → mem.seq.toNat ≤ mem.completed
  results : ∀ generation, mem.results generation ≠ [] → generation < mem.completed

def Known (cfg : Config) (completed : Nat) : Pc → Prop
  | .waitLoad gen own | .waitFutex gen own _ | .waitSleep gen own =>
    cfg.count ≠ 1 ∧ gen.toNat = own ∧ own ≤ completed
  | .storeSeq gen own => own < completed ∧ (cfg.count ≠ 1 → gen.toNat = own)
  | .wakeSeq own | .leave _ own | .leaveWake _ own => own < completed
  | .outside | .enter | .load | .loop _ | .undefined => True

theorem Known.mono {completed more : Nat} (grows : completed ≤ more) {pc : Pc}
    (known : Known cfg completed pc) : Known cfg more pc := by
  cases pc with
  | waitLoad gen own | waitFutex gen own _ | waitSleep gen own =>
    exact ⟨known.1, known.2.1, known.2.2.trans grows⟩
  | storeSeq gen own => exact ⟨known.1.trans_le grows, known.2⟩
  | wakeSeq own | leave _ own | leaveWake _ own => exact known.trans_le grows
  | outside | enter | load | loop _ | undefined => trivial

theorem Published.completed_lt {mem : Shared τ} (published : Published cfg mem)
    (several : cfg.count ≠ 1) : mem.completed < 2 ^ 31 := by
  rw [← published.generation several]
  apply Nat.div_lt_of_lt_mul
  have two : 2 ^ 1 ≤ 2 ^ cfg.genShift :=
    Nat.pow_le_pow_right (by decide) (cfg.genShift_pos several)
  have bound := mem.waiting.toNat_lt
  omega

section Leaving

variable {t : τ} {mem after : Shared τ} {pc next : Pc} {label : Label}
  (counted : Counted cfg mem) (published : Published cfg mem)
include published

variable {own : Nat}

theorem checkSeq_known {gen : UInt32}
    (known : cfg.count ≠ 1 ∧ gen.toNat = own ∧ own ≤ mem.completed) :
    Known cfg mem.completed (checkSeq mem gen own).2 := by
  rcases known with ⟨several, same, entered⟩
  unfold checkSeq
  split_ifs with pos
  · have low := published.completed_lt several
    have passed := sub_toInt32_pos (by omega) pos
    have seq := published.seq several
    change own < mem.completed
    omega
  · exact ⟨several, same, entered⟩

theorem returns_published {result : Result} (past : own < mem.completed) :
    Published cfg (returns mem result own).1 := by
  refine ⟨published.generation, published.seq, ?_⟩
  intro generation
  by_cases same : generation = own
  · intro _
    rw [same]
    exact past
  · simp only [returns, Function.update_of_ne same]
    exact published.results generation

theorem storeSeq_published {gen : UInt32}
    (known : own < mem.completed ∧ (cfg.count ≠ 1 → gen.toNat = own)) :
    Published cfg { mem with seq := gen + 1 } := by
  refine ⟨published.generation, ?_, published.results⟩
  intro several
  have number := known.2 several
  change (gen + 1).toNat ≤ mem.completed
  rw [UInt32.toNat_add, UInt32.toNat_one]
  omega

theorem iteration_published (counted : Counted cfg mem) {old : UInt32}
    (fits : cfg.count ≠ 1 → cfg.IsLast old →
      ((cfg.gen old).toNat + 1) * 2 ^ cfg.genShift < 2 ^ 32) :
    Published cfg (iteration cfg mem old).1 ∧
      Known cfg (iteration cfg mem old).1.completed (iteration cfg mem old).2 ∧
      mem.completed ≤ (iteration cfg mem old).1.completed := by
  have number (several : cfg.count ≠ 1) (same : mem.waiting = old) :
      (cfg.gen old).toNat = mem.completed := by
    rw [cfg.gen_toNat, ← same, published.generation several]
  unfold iteration
  split_ifs with last same same
  · split
    · exact ⟨published, trivial, le_rfl⟩
    next start next =>
    refine ⟨⟨?_, ?_, ?_⟩, ⟨Nat.lt_succ_self _, fun several => number several same⟩, Nat.le_succ _⟩
    · intro several
      rw [cfg.nextGenStart_div next (fits several last), number several same]
    · exact fun several => (published.seq several).trans (Nat.le_succ _)
    · exact fun generation some => (published.results generation some).trans (Nat.lt_succ_self _)
  · split <;> exact ⟨published, trivial, le_rfl⟩
  · subst same
    have several : cfg.count ≠ 1 := by
      intro single
      have shift := cfg.genShift_eq_zero single
      have room := counted.room last
      rw [shift] at room
      omega
    refine ⟨⟨?_, published.seq, published.results⟩, ⟨several, number several rfl, le_rfl⟩, le_rfl⟩
    intro _
    rw [cfg.succ_div (counted.room last), published.generation several]
  · exact ⟨published, trivial, le_rfl⟩

theorem threadStep_published [DecidableEq τ] (counted : Counted cfg mem)
    (known : Known cfg mem.completed pc)
    (fits : label = .run → cfg.count ≠ 1 → ∀ old ∈ pc.old, cfg.IsLast old →
      ((cfg.gen old).toNat + 1) * 2 ^ cfg.genShift < 2 ^ 32)
    (steps : threadStep cfg t mem pc label = some (after, next)) :
    Published cfg after ∧ Known cfg after.completed next ∧ mem.completed ≤ after.completed := by
  unfold threadStep at steps
  split at steps
  all_goals try cases steps
  · exact ⟨published, trivial, le_rfl⟩
  · exact ⟨{ published with }, trivial, le_rfl⟩
  · exact ⟨published, trivial, le_rfl⟩
  · next old =>
    rcases Prod.ext_iff.mp (some.inj steps) with ⟨rfl, rfl⟩
    exact iteration_published published counted fun several last => fits rfl several old rfl last
  · exact ⟨published, trivial, le_rfl⟩
  · exact ⟨storeSeq_published published known, known.1, le_rfl⟩
  · exact ⟨{ published with }, known, le_rfl⟩
  · next gen own =>
    rcases Prod.ext_iff.mp (some.inj steps) with ⟨rfl, rfl⟩
    have unchanged : (checkSeq mem gen own).1 = mem := by
      unfold checkSeq
      split_ifs <;> rfl
    rw [unchanged]
    exact ⟨published, checkSeq_known published known, le_rfl⟩
  · have outcome := some.inj steps
    unfold futexWait at outcome
    split_ifs at outcome <;> cases outcome
    · exact ⟨{ published with }, known, le_rfl⟩
    · exact ⟨published, known, le_rfl⟩
  · split_ifs at steps
    cases steps
    exact ⟨published, known, le_rfl⟩
  · exact ⟨{ published with }, known, le_rfl⟩
  · have outcome := some.inj steps
    have left : Published cfg { mem with inside := mem.inside - 1 } := { published with }
    unfold leaveInside at outcome
    split_ifs at outcome <;> cases outcome
    · exact ⟨left, known, le_rfl⟩
    · exact ⟨returns_published left known, trivial, le_rfl⟩
  · exact ⟨returns_published published known, trivial, le_rfl⟩

end Leaving

theorem reachable_published [DecidableEq τ] {s : ThreadState τ (Shared τ) Pc}
    (reach : (system τ cfg).interleaving.ReachableVia (GenerationFits cfg) s) :
    Published cfg s.shared ∧ ∀ t, Known cfg s.shared.completed (s.threads t) := by
  have invariant := ThreadSystem.reachable_invariant
    (fun (_ : Unit) mem => Counted cfg mem ∧ Published cfg mem)
    (fun _ _ mem pc => Known cfg mem.completed pc) ?_ ?_ reach
  · rcases invariant with ⟨-, ⟨-, published⟩, known⟩
    exact ⟨published, known⟩
  · rintro mem rfl
    refine ⟨(), ⟨⟨by simp, cfg.positive, by simp, by simp⟩, ⟨by simp, by simp, by simp⟩⟩, ?_⟩
    rintro t pc rfl
    trivial
  · rintro _ s t label after next ⟨counted, published⟩ known fits steps
    rcases threadStep_published published counted known fits steps with
      ⟨newPublished, newKnown, grows⟩
    exact ⟨(), ⟨counted.step (threadStep_kind steps), newPublished⟩, newKnown,
      fun other _ otherPc otherKnown => otherKnown.mono grows⟩

/-- Every completed generation has `count` threads and one serial thread; and in every run that does
not lose bits of the generation, nobody leaves one before `count` threads have entered it. -/
theorem barrier_safe [DecidableEq τ] (cfg : Config) (s : ThreadState τ (Shared τ) Pc)
    (reach : (system τ cfg).interleaving.Reachable s) :
    (∀ generation < s.shared.completed, s.shared.entered generation = cfg.count.toNat ∧
      ((s.shared.results generation).count .serialThread = 1 ∧
          (∀ t, ¬ Serial generation (s.threads t)) ∨
        (s.shared.results generation).count .serialThread = 0 ∧
          ∃! t, Serial generation (s.threads t))) ∧
    (∀ generation ≥ s.shared.completed, (s.shared.results generation).count .serialThread = 0 ∧
        ∀ t, ¬ Serial generation (s.threads t)) ∧
    ((system τ cfg).interleaving.ReachableVia (GenerationFits cfg) s →
      ∀ generation, ((∃ t, Left generation (s.threads t)) ∨ s.shared.results generation ≠ []) →
        s.shared.entered generation = cfg.count.toNat) := by
  rcases reachable_counted reach with ⟨counted, ghost, serial, known⟩
  refine ⟨?_, ?_, ?_⟩
  · intro generation past
    refine ⟨counted.past generation past, ?_⟩
    have total := serial generation
    rw [if_pos past] at total
    cases assigned : ghost generation with
    | none =>
      rw [assigned] at total
      refine .inl ⟨by simpa using total, fun t isSerial => ?_⟩
      rw [known t generation, assigned] at isSerial
      cases isSerial
    | some owner =>
      rw [assigned] at total
      refine .inr ⟨by simpa using total, owner, ?_, ?_⟩
      · exact (known owner generation).mpr assigned
      · intro t isSerial
        rw [known t generation, assigned] at isSerial
        exact (some.inj isSerial).symm
  · intro generation future
    have total := serial generation
    rw [if_neg (not_lt.mpr future), Nat.add_eq_zero_iff, List.length_eq_zero_iff,
      toList_eq_nil_iff] at total
    refine ⟨total.1, fun t isSerial => ?_⟩
    rw [known t generation, total.2] at isSerial
    cases isSerial
  · intro fits generation passed
    rcases reachable_published fits with ⟨published, generations⟩
    apply counted.past generation
    rcases passed with ⟨t, left⟩ | some
    · have own := generations t
      cases atPc : s.threads t <;> rw [atPc] at left own <;>
        simp only [Left, Known] at left own <;> omega
    · exact published.results generation some

instance (cfg : Config) (s : ThreadState τ (Shared τ) Pc) : DecidablePred (GenerationFits cfg s) :=
  fun label =>
    have : Decidable (∀ old ∈ (s.threads label.1).old, cfg.IsLast old →
        ((cfg.gen old).toNat + 1) * 2 ^ cfg.genShift < 2 ^ 32) :=
      Option.decidableForallMem _
    inferInstanceAs (Decidable (_ → _ → ∀ old ∈ _, _ → _))

def three : Config where
  count := 3
  genShift := 2
  positive := by decide
  large := by decide
  least shift enough := by
    by_contra small
    have : shift = 0 ∨ shift = 1 := by omega
    rcases this with rfl | rfl <;> exact absurd enough (by decide)

local instance threeThreads : NeZero 3 := ⟨by decide⟩

def passLabels : List (Fin 3 × Label) :=
  [(0, .wait), (0, .run), (0, .run), (0, .run), (1, .wait), (1, .run), (1, .run), (1, .run),
    (2, .wait), (2, .run), (2, .run), (2, .run), (2, .run), (2, .run), (2, .run),
    (0, .run), (0, .run), (1, .run), (1, .run), (1, .run)]

def start : ThreadState (Fin 3) (Shared (Fin 3)) Pc :=
  ⟨⟨0, 0, 0, ∅, 0, fun _ => 0, fun _ => []⟩, fun _ => .outside⟩

theorem barrier_safe_three_pass :
    ∃ s, (system (Fin 3) three).interleaving.ReachableVia (GenerationFits three) s ∧
      s.shared.completed = 1 ∧
      s.shared.results 0 = [.zero, .zero, .serialThread] ∧
      s.shared.entered 0 = 3 := by
  have passed : ∃ s ∈ (system (Fin 3) three).interleaving.run (GenerationFits three)
      start passLabels, s.shared.completed = 1 ∧
      s.shared.results 0 = [.zero, .zero, .serialThread] :=
    ⟨_, rfl, rfl, rfl⟩
  obtain ⟨s, reach, completed, results⟩ := exists_reachable passed ⟨rfl, fun _ => rfl⟩
  have safe := barrier_safe three s (reach.mono fun _ _ _ => trivial)
  refine ⟨s, reach, completed, results, ?_⟩
  exact safe.2.2 reach 0 (.inr (by simp [results]))

/-! ### The packed generation wraps -/

variable {s : ThreadState (Fin 3) (Shared (Fin 3)) Pc}

theorem pass_run {first gen start : UInt32} (outside : ∀ t, s.threads t = .outside)
    (waiting : s.shared.waiting = first) (inside : s.shared.inside = 0)
    (notLast : ¬ three.IsLast first) (stillNotLast : ¬ three.IsLast (first + 1))
    (last : three.IsLast (first + 1 + 1)) (firstGen : three.gen first = gen)
    (secondGen : three.gen (first + 1) = gen) (thirdGen : three.gen (first + 1 + 1) = gen)
    (starts : three.nextGenStart (first + 1 + 1) = some start) :
    ∃ next, (system (Fin 3) three).interleaving.run (fun _ _ => True) s passLabels =
        some next ∧ (∀ t, next.threads t = .outside) ∧
      next.shared.waiting = start ∧ next.shared.inside = 0 ∧
      next.shared.seq = gen + 1 ∧ next.shared.completed = s.shared.completed + 1 := by
  have pos : 0 < gen.toInt32 + 1 - gen.toInt32 := by
    rw [Int32.add_comm, Int32.add_sub_cancel]
    decide
  simp [passLabels, run, ThreadSystem.interleaving, system, threadStep,
    iteration, checkSeq, leaveInside, returns, outside, waiting, inside, notLast,
    stillNotLast, last, firstGen, secondGen, thirdGen, starts, pos]
  simp [Fin.forall_fin_succ]

structure Passed (passes : Nat) (s : ThreadState (Fin 3) (Shared (Fin 3)) Pc) : Prop where
  reachable : (system (Fin 3) three).interleaving.Reachable s
  outside : ∀ t, s.threads t = .outside
  waiting : s.shared.waiting = UInt32.ofNat (4 * passes)
  inside : s.shared.inside = 0
  seq : s.shared.seq = UInt32.ofNat passes
  completed : s.shared.completed = passes

theorem Passed.pass {passes : Nat} (small : passes < 2 ^ 30) (passed : Passed passes s) :
    ∃ next, Passed (passes + 1) next := by
  have words (waiters : Nat) (few : waiters < 4) :
      (ofNat (4 * passes + waiters)).toNat = 4 * passes + waiters := by
    rw [toNat_ofNat']
    omega
  have gens (waiters : Nat) (few : waiters < 4) :
      three.gen (ofNat (4 * passes + waiters)) = ofNat passes := by
    apply UInt32.toNat_inj.mp
    have four : 2 ^ three.genShift = 4 := rfl
    rw [three.gen_toNat, words waiters few, UInt32.toNat_ofNat', four]
    omega
  have isLast (waiters : Nat) (few : waiters < 4) :
      three.IsLast (ofNat (4 * passes + waiters)) ↔ waiters = 2 := by
    have four : 2 ^ three.genShift = 4 := rfl
    have count : three.count.toNat = 3 := rfl
    rw [three.isLast_iff, words waiters few, four]
    omega
  have second : ofNat (4 * passes) + 1 = ofNat (4 * passes + 1) := by
    rw [ofNat_add]
    rfl
  have third : ofNat (4 * passes) + 1 + 1 = ofNat (4 * passes + 2) := by
    rw [second, ← UInt32.ofNat_one, ← UInt32.ofNat_add]
  have start : three.nextGenStart (ofNat (4 * passes) + 1 + 1) =
      some (ofNat (4 * (passes + 1))) := by
    have shift : (ofNat three.genShift).toNat = 2 := rfl
    have four : 2 ^ (2 % 32) = 4 := rfl
    rw [third, Config.nextGenStart, gens 2 (by decide)]
    apply congrArg some
    apply UInt32.toNat_inj.mp
    rw [UInt32.toNat_shiftLeft, shift, Nat.shiftLeft_eq, UInt32.toNat_add,
      toNat_ofNat', toNat_ofNat', toNat_one, four]
    omega
  rcases pass_run passed.outside passed.waiting passed.inside
      ((isLast 0 (by decide)).not.mpr (by decide))
      (by rw [second, isLast 1 (by decide)]; decide)
      (by rw [third, isLast 2 (by decide)]) (gens 0 (by decide))
      (by rw [second, gens 1 (by decide)]) (by rw [third, gens 2 (by decide)]) start with
    ⟨next, runs, outside, waiting, inside, seq, completed⟩
  refine ⟨next, passed.reachable.run runs, outside, waiting, inside, ?_, ?_⟩
  · rw [seq, ofNat_add]
    rfl
  · rw [completed, passed.completed]

theorem exists_passed (passes : Nat) (small : passes ≤ 2 ^ 30) : ∃ s, Passed passes s := by
  induction passes with
  | zero => exact ⟨start, .initial ⟨rfl, fun _ => rfl⟩, fun _ => rfl, rfl, rfl, rfl, rfl⟩
  | succ passes ih =>
    rcases ih (by omega) with ⟨s, passed⟩
    exact passed.pass (by omega)

/-- After 2^30 passes of three threads the packed generation is zero again, and the next thread
leaves at once. -/
theorem barrier_wrap_leaves_early : ∃ s, (system (Fin 3) three).interleaving.Reachable s ∧
      s.threads 0 = .leave .zero (2 ^ 30) ∧
      s.shared.entered (2 ^ 30) = 1 := by
  rcases exists_passed (2 ^ 30) le_rfl with ⟨s, passed⟩
  have wrapped : s.shared.waiting = 0 := passed.waiting
  have runs : ∃ next, (system (Fin 3) three).interleaving.run (fun _ _ => True) s
      [(0, .wait), (0, .run), (0, .run), (0, .run), (0, .run)] = some next ∧
      next.threads 0 = .leave .zero (2 ^ 30) ∧ next.shared.waiting = 1 ∧
      next.shared.completed = 2 ^ 30 := by
    have notLast : ¬ three.IsLast 0 := by decide
    have gen : three.gen 0 = 0 := rfl
    simp [run, ThreadSystem.interleaving, system, threadStep, iteration,
      checkSeq, passed.outside, wrapped, passed.seq, passed.completed, notLast, gen]
  rcases runs with ⟨next, runs, atPc, waiting, completed⟩
  have reach := passed.reachable.run runs
  refine ⟨next, reach, atPc, ?_⟩
  have current := (reachable_counted reach).1.current
  rw [completed, waiting] at current
  exact current

end Mlibc.Barrier
