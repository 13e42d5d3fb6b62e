import Mlibc.GetoptCall

/-! # A run of calls -/

namespace Mlibc.Getopt

/-- The calls until one returns -1: the returned characters and the arguments that the program
reads with them. -/
def run (opts : Options) (posixlyCorrect : Bool) : Nat → State → Option (List Output)
  | 0, _ => none
  | fuel + 1, s =>
    match getoptCommon opts.text posixlyCorrect s with
    | none => none
    | some (none, _) => some []
    | some (some c, next) =>
      (run opts posixlyCorrect fuel next).map ((c, opts.observe c next.optarg) :: ·)

section Runs

variable {opts : Options} (posixlyCorrect : Bool)

theorem parse_noOptions {words : List Text} (none : opts.noOptions words = true)
    (notMinus : opts.lead ≠ .minus) : opts.parse false words = [] := by
  fun_induction Options.noOptions opts words with
  | case1 => rfl
  | case2 => cases none
  | case3 => exact Options.parse.eq_def ..
  | case4 word rest notOption notSeparator plus =>
    unfold Options.parse
    rw [if_neg notOption, if_neg notSeparator, plus]
  | case5 word rest notOption notSeparator _ ih =>
    unfold Options.parse
    rw [if_neg notOption, if_neg notSeparator]
    cases lead : opts.lead with
    | plus => rfl
    | minus => exact absurd lead notMinus
    | plain | colon => exact ih none

theorem parse_inOrder {words : List Text} (ordered : opts.inOrder words = true) :
    opts.parse true words = opts.parse false words := by
  fun_induction Options.inOrder opts words with
  | case1 => rfl
  | case2 word isOption outputs rest parsed ih =>
    unfold Options.parse
    rw [if_pos isOption, if_pos isOption, parsed]
    exact congrArg (outputs ++ ·) (ih ordered)
  | case3 word isOption outputs _ parsed =>
    unfold Options.parse
    rw [if_pos isOption, if_pos isOption, parsed]
  | case4 word isOption outputs c next rest parsed ih =>
    unfold Options.parse
    rw [if_pos isOption, if_pos isOption, parsed]
    exact congrArg (outputs ++ (c, some next) :: ·) (ih ordered)
  | case5 =>
    unfold Options.parse
    rfl
  | case6 word rest notOption notSeparator plus =>
    unfold Options.parse
    rw [if_neg notOption, if_neg notOption, if_neg notSeparator, if_neg notSeparator, plus]
  | case7 word rest notOption notSeparator minus ih =>
    unfold Options.parse
    rw [if_neg notOption, if_neg notOption, if_neg notSeparator, if_neg notSeparator, minus]
    exact congrArg (_ :: ·) (ih ordered)
  | case8 word rest notOption notSeparator notPlus notMinus =>
    unfold Options.parse
    rw [if_neg notOption, if_neg notOption, if_neg notSeparator, if_neg notSeparator,
      parse_noOptions ordered notMinus]
    cases lead : opts.lead with
    | plus | plain | colon => rfl
    | minus => exact absurd lead notMinus

theorem run_pending {front words : List Text} {expected : List Output} {s : State}
    (pending : Pending opts front words expected s) {fuel : Nat}
    (enough : expected.length < fuel) :
    run opts posixlyCorrect fuel s = some expected := by
  induction fuel generalizing front words expected s with
  | zero => exact absurd enough (Nat.not_lt_zero _)
  | succ fuel ih =>
    obtain ⟨rfl, next, returns⟩ | ⟨c, next, front, words, out, returns, rfl, later⟩ :=
      getoptCommon_step posixlyCorrect pending
    · simp only [run, returns]
    · simp only [run, returns, ih later (Nat.lt_of_succ_lt_succ enough), Option.map_some]

/-- The calls until -1 return the options of the parse, if the words are clean and, where
`POSIXLY_CORRECT` is set, no option stands behind an operand. -/
theorem getoptCommon_parses (argv : List Text) (prog : argv ≠ [])
    (noNul : ∀ word ∈ argv, 0 ∉ word) (clean : opts.clean (argv.drop 1) = true)
    (ordered : posixlyCorrect = true → opts.inOrder (argv.drop 1) = true) {fuel : Nat}
    (enough : (opts.parse posixlyCorrect (argv.drop 1)).length < fuel) :
    run opts posixlyCorrect fuel (State.start argv) =
      some (opts.parse posixlyCorrect (argv.drop 1)) := by
  have same : opts.parse posixlyCorrect (argv.drop 1) = opts.parse false (argv.drop 1) := by
    cases posixlyCorrect with
    | false => rfl
    | true => exact parse_inOrder (ordered rfl)
  rw [same] at enough ⊢
  cases argv with
  | nil => exact absurd rfl prog
  | cons name words =>
    have pending : Pending opts [name] words (opts.parse false words)
        (State.start (name :: words)) := by
      constructor
      · exact List.cons_ne_nil _ _
      · rfl
      · rfl
      · exact fun word mem => noNul word (List.mem_cons_of_mem _ mem)
      · exact .fresh clean
    exact run_pending posixlyCorrect pending enough

end Runs

def fiveOptions : Options where
  lead := .plain
  letters := [(97, .absent), (98, .absent), (99, .absent), (100, .absent), (111, .required)]
  alphanumeric := by decide

theorem getoptCommon_parses_words : run fiveOptions false 8 (State.start
        [[112], [97], [45, 98], [45, 111, 100], [121], [45, 111], [120], [45, 97, 100]]) =
      some [(98, none), (111, some [100]), (111, some [120]), (97, none), (100, none)] ∧
    run fiveOptions true 8 (State.start [[112], [45, 98], [45, 111], [120], [121], [122]]) =
      some [(98, none), (111, some [120])] := by
  constructor
  · exact getoptCommon_parses false
      [[112], [97], [45, 98], [45, 111, 100], [121], [45, 111], [120], [45, 97, 100]]
      (by decide) (by decide) (by decide +kernel) (by decide) (by decide +kernel)
  · exact getoptCommon_parses true [[112], [45, 98], [45, 111], [120], [121], [122]]
      (by decide) (by decide) (by decide +kernel) (by decide +kernel) (by decide +kernel)

/-- An unclean run may give the options of the parse. -/
example : fiveOptions.clean [[45, 97, 98], [45, 111, 111], [111]] = false ∧
    run fiveOptions false 8 (State.start [[112], [45, 97, 98], [45, 111, 111], [111]]) =
      some (fiveOptions.parse false [[45, 97, 98], [45, 111, 111], [111]]) := by
  decide +kernel

theorem run_missing (fuel : Nat) (optopt : UInt8) :
    run fiveOptions false fuel ⟨[[112], [45, 111]], 1, 1, none, optopt⟩ = none := by
  induction fuel generalizing optopt with
  | zero => rfl
  | succ fuel ih =>
    have again : getoptCommon fiveOptions.text false ⟨[[112], [45, 111]], 1, 1, none, optopt⟩ =
        some (some questionMark, ⟨[[112], [45, 111]], 1, 1, none, 111⟩) := rfl
    simp only [run, again, ih, Option.map_none]

/-- Letters of `-cd` and `-a` are passed over, an `-o` without an argument is returned for ever, and
`-a` behind an operand is returned in spite of `POSIXLY_CORRECT`. -/
theorem getoptCommon_misparses :
    run fiveOptions false 8 (State.start [[112], [45, 97, 98], [45, 99, 100]]) =
        some [(97, none), (98, none), (100, none)] ∧
      fiveOptions.parse false [[45, 97, 98], [45, 99, 100]] =
        [(97, none), (98, none), (99, none), (100, none)] ∧
      (∃ next, getoptCommon fiveOptions.text false (State.start [[112], [45, 111], [45, 97]]) =
        some (some questionMark, next)) ∧
      fiveOptions.parse false [[45, 111], [45, 97]] = [(111, some [45, 97])] ∧
      (∀ fuel, run fiveOptions false fuel (State.start [[112], [45, 111]]) = none) ∧
      fiveOptions.parse false [[45, 111]] = [(questionMark, none)] ∧
      run fiveOptions true 8 (State.start [[112], [120], [45, 97]]) = some [(97, none)] ∧
      fiveOptions.parse true [[120], [45, 97]] = [] := by
  refine ⟨by decide +kernel, by decide +kernel, ⟨_, rfl⟩, by decide +kernel, ?_, by decide +kernel⟩
  exact fun fuel => run_missing fuel 0

end Mlibc.Getopt
