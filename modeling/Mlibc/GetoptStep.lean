import Mlibc.GetoptReady

/-! # The option at the position -/

namespace Mlibc.Getopt

open List Options

def Options.observe (opts : Options) (c : UInt8) (optarg : Option Text) : Option Text :=
  if c = 1 then optarg
  else
    match opts.argument c with
    | some .required => optarg
    | some .optional => optarg
    | _ => none

theorem observe_known {opts : Options} {c : UInt8} {argument : Argument}
    (known : opts.argument c = some argument) (optarg : Option Text) :
    opts.observe c optarg = if argument = .absent then none else optarg := by
  have other : c ≠ 1 := ne_of_isAlphanumeric (strchr_known known).1 rfl
  rw [observe, if_neg other, known]
  cases argument <;> rfl

theorem argument_questionMark (opts : Options) : opts.argument questionMark = none := by
  cases known : opts.argument questionMark with
  | none => rfl
  | some _ => exact absurd (strchr_known known).1 (by decide)

/-- What a call has done that returned a character: some of the words are used up, and the others
are ready. -/
structure Progress (opts : Options) (front words : List Text) (expected : List Output)
    (c : UInt8) (next : State) (used left : List Text) (out : List Output) : Prop where
  argv : next.argv = front ++ words
  words : words = used ++ left
  optind : next.optind = front.length + used.length
  output : expected = (c, opts.observe c next.optarg) :: out
  ready : Ready opts next.optpos left out

/-- The option at the position is returned. -/
def Steps (opts : Options) (front : List Text) (word : Text) (rest : List Text) (s : State)
    (chars : Text) : Prop :=
  ∃ c next used left out, shortOption opts.text word s = some (some c, next) ∧
    Progress opts front (word :: rest) (opts.outputs chars rest) c next used left out

section Characters

variable {text : Text} {i : Nat} {c : UInt8} {more : Text}

variable (chars : text.drop i = c :: more)

include chars

theorem charAt_of_drop : charAt text i = some c := by
  have inside : i < text.length := by
    by_contra outside
    rw [drop_eq_nil_of_le (Nat.le_of_not_lt outside)] at chars
    cases chars
  rw [charAt, getElem?_append_left inside, ← head?_drop, chars]
  rfl

theorem drop_succ_of_drop : text.drop (i + 1) = more := by
  rw [← drop_drop, chars]
  rfl

theorem charAt_succ_of_drop (noNul : 0 ∉ text) :
    ∃ following, charAt text (i + 1) = some following ∧ (following = 0 ↔ more = []) := by
  have later := drop_succ_of_drop chars
  cases more with
  | nil =>
    have ends : i + 1 = text.length := by
      have total := congrArg length chars
      rw [length_drop, length_singleton] at total
      omega
    refine ⟨0, ?_, by simp⟩
    rw [charAt, ends, getElem?_concat_length]
  | cons d more =>
    refine ⟨d, charAt_of_drop later, ?_⟩
    have mem : d ∈ text := by
      apply mem_of_mem_drop
      rw [later]
      exact mem_cons_self
    constructor
    · rintro rfl
      exact absurd mem noNul
    · intro empty
      cases empty

end Characters

section Word

variable {opts : Options} {front rest : List Text} {word : Text} {s : State}
  {c : UInt8} {more : Text}

theorem steps_word {chars : Text} (c : UInt8) (next : State)
    (returns : shortOption opts.text word s = some (some c, next))
    (argv : next.argv = front ++ word :: rest) (optind : next.optind = front.length + 1)
    (clean : opts.cleanAfter next.optpos rest = true)
    (output : opts.outputs chars rest = (c, opts.observe c next.optarg) :: opts.parse false rest) :
    Steps opts front word rest s chars := by
  refine ⟨c, next, [word], rest, opts.parse false rest, returns, argv, rfl, optind, output, ?_⟩
  unfold cleanAfter at clean
  split_ifs at clean with atStart
  · rw [atStart]
    exact .fresh clean
  · exact .finished clean

section Option

variable (argv : s.argv = front ++ word :: rest) (optind : s.optind = front.length)
  (noNul : 0 ∉ word) (chars : word.drop s.optpos = c :: more)
  (clean : opts.cleanFrom s.optpos (c :: more) rest = true)
include argv optind noNul chars clean

theorem shortOption_unknown (unknown : opts.argument c = none) (pos : 0 < s.optpos) :
    Steps opts front word rest s (c :: more) := by
  simp only [cleanFrom, cleanWord, cluster, unknown, Bool.and_eq_true, decide_eq_true_eq] at clean
  obtain ⟨⟨rfl, notMember⟩, after⟩ := clean
  have nz : c ≠ 0 := by
    rintro rfl
    apply noNul
    apply mem_of_mem_drop
    rw [chars]
    exact mem_cons_self
  have first : ∃ d, charAt word 1 = some d := by
    have long : 1 < (word ++ [0]).length := by
      have total := congrArg length chars
      rw [length_drop, length_singleton] at total
      rw [length_append]
      omega
    exact ⟨_, getElem?_eq_getElem long⟩
  obtain ⟨d, first⟩ := first
  refine steps_word questionMark { s with optopt := d, optind := s.optind + 1 } ?_ argv
    (congrArg (· + 1) optind) after ?_
  · simp only [shortOption, charAt_of_drop chars, strchr_of_notMem nz notMember, first,
      bind, Option.bind, pure]
  · rw [outputs_unknown unknown, outputs_nil, observe, if_neg (by decide), argument_questionMark]

theorem shortOption_absent (known : opts.argument c = some .absent)
    (isOption : isOptionArg word = true) : Steps opts front word rest s (c :: more) := by
  obtain ⟨isCh, opt, found, suffix, marks, notColon⟩ := strchr_known known
  obtain ⟨following, behind, ends⟩ := charAt_succ_of_drop chars noNul
  have nz : c ≠ 0 := ne_of_isAlphanumeric isCh rfl
  have after := cleanFrom_absent known clean
  by_cases last : more = []
  · rw [if_pos last] at after
    refine steps_word c { s with optind := s.optind + 1 } ?_ argv (congrArg (· + 1) optind) after ?_
    · simp only [shortOption, charAt_of_drop chars, found, marks, behind, bind, Option.bind, pure,
        if_neg notColon, ends.mpr last, ne_eq, not_true_eq_false, if_false, nz,
        not_false_eq_true, if_true]
    · rw [outputs_absent known, last, outputs_nil, observe_known known, if_pos rfl]
  rw [if_neg last] at after
  have later := drop_succ_of_drop chars
  have goesOn : following ≠ 0 := fun zero => last (ends.mp zero)
  refine ⟨c, { s with optpos := s.optpos + 1 }, [], word :: rest,
    opts.outputs more rest, ?_, argv, rfl, optind, ?_, ?_⟩
  · simp only [shortOption, charAt_of_drop chars, found, marks, behind, bind, Option.bind, pure,
      if_neg notColon, if_pos goesOn]
  · rw [outputs_absent known, observe_known known, if_pos rfl]
  have inside : s.optpos + 1 < word.length := by
    by_contra outside
    rw [drop_eq_nil_of_le (Nat.le_of_not_lt outside)] at later
    exact last later.symm
  rw [← later] at after ⊢
  exact Ready.inside (by simp) (.inl rfl) isOption (Nat.succ_pos _) inside after

theorem shortOption_attached {argument : Argument} (known : opts.argument c = some argument)
    (takes : argument ≠ .absent) (attached : more ≠ []) :
    Steps opts front word rest s (c :: more) := by
  obtain ⟨isCh, opt, found, marks⟩ := strchr_known known
  obtain ⟨following, behind, ends⟩ := charAt_succ_of_drop chars noNul
  have goesOn : following ≠ 0 := fun zero => attached (ends.mp zero)
  have colons : charAt opt 1 = some colonSign ∧ ∃ suffix, charAt opt 2 = some suffix := by
    cases argument with
    | absent => exact absurd rfl takes
    | required => exact ⟨marks.1, marks.2.imp fun _ => And.left⟩
    | optional => exact ⟨marks.1, _, marks.2⟩
  obtain ⟨colon, suffix, second⟩ := colons
  have cleanRest : opts.cleanAfter s.optpos rest = true := by
    cases argument with
    | absent => exact absurd rfl takes
    | required =>
      simp only [cleanFrom, cleanWord, cluster, known, if_neg attached] at clean
      exact clean
    | optional => exact cleanFrom_optional known clean
  refine steps_word c { s with optarg := some more, optind := s.optind + 1 } ?_ argv
    (congrArg (· + 1) optind) cleanRest ?_
  · simp only [shortOption, charAt_of_drop chars, found, colon, second, behind, bind, Option.bind,
      pure, if_true, if_pos goesOn, drop_succ_of_drop chars]
  rw [observe_known known, if_neg takes]
  cases argument with
  | absent => exact absurd rfl takes
  | required => exact outputs_attached known attached
  | optional => rw [outputs_optional known, if_neg attached]

theorem shortOption_optional (known : opts.argument c = some .optional) (alone : more = []) :
    Steps opts front word rest s (c :: more) := by
  obtain ⟨isCh, opt, found, colon, second⟩ := strchr_known known
  obtain ⟨following, behind, ends⟩ := charAt_succ_of_drop chars noNul
  refine steps_word c { s with optarg := none, optind := s.optind + 1 } ?_ argv
    (congrArg (· + 1) optind) (cleanFrom_optional known clean) ?_
  · simp only [shortOption, charAt_of_drop chars, found, colon, second, behind, ends.mpr alone,
      bind, Option.bind]
    cases s.argv[s.optind + 1]? <;> rfl
  · rw [outputs_optional known, if_pos alone, observe_known known, if_neg (by decide)]

theorem shortOption_separate (known : opts.argument c = some .required) (alone : more = []) :
    Steps opts front word rest s (c :: more) := by
  subst alone
  obtain ⟨isCh, opt, found, colon, suffix, second, notColon⟩ := strchr_known known
  obtain ⟨following, behind, ends⟩ := charAt_succ_of_drop chars noNul
  simp only [cleanFrom, cleanWord, cluster, known, Bool.true_and] at clean
  obtain _ | ⟨argument, left⟩ := rest
  · cases clean
  obtain ⟨notDash, later⟩ := Bool.and_eq_true_iff.mp clean
  replace notDash := of_decide_eq_true notDash
  have read : s.argv[s.optind + 1]? = some argument := by
    rw [argv, optind, getElem?_append_right (Nat.le_add_right _ 1), Nat.add_sub_cancel_left]
    rfl
  have notDash : charAt argument 0 ≠ some dash := by
    cases argument with
    | nil => decide
    | cons d more => exact notDash
  refine ⟨c, { s with optarg := some argument, optind := s.optind + 2, optpos := 1 },
    [word, argument], left, _, ?_, argv, rfl, congrArg (· + 2) optind, ?_, .fresh later⟩
  · simp only [shortOption, charAt_of_drop chars, found, colon, second, behind, ends.mpr rfl, bind,
      Option.bind, pure, if_true, ne_eq, not_true_eq_false, if_false, read, notColon,
      not_false_eq_true, notDash, and_self]
  · rw [outputs_separate known, observe_known known, if_neg (by decide)]

end Option

theorem shortOption_step (argv : s.argv = front ++ word :: rest)
    (optind : s.optind = front.length) (isOption : isOptionArg word = true) (noNul : 0 ∉ word)
    (pos : 0 < s.optpos) (inside : s.optpos < word.length)
    (clean : opts.cleanFrom s.optpos (word.drop s.optpos) rest = true) :
    Steps opts front word rest s (word.drop s.optpos) := by
  obtain ⟨c, more, chars⟩ : ∃ c more, word.drop s.optpos = c :: more :=
    ⟨_, _, drop_eq_getElem_cons inside⟩
  rw [chars] at clean ⊢
  cases known : opts.argument c with
  | none => exact shortOption_unknown argv optind noNul chars clean known pos
  | some argument =>
    by_cases absent : argument = .absent
    · subst absent
      exact shortOption_absent argv optind noNul chars clean known isOption
    by_cases alone : more = []
    · cases argument with
      | absent => exact absurd rfl absent
      | required => exact shortOption_separate argv optind noNul chars clean known alone
      | optional => exact shortOption_optional argv optind noNul chars clean known alone
    · exact shortOption_attached argv optind noNul chars clean known absent alone

end Word

end Mlibc.Getopt
