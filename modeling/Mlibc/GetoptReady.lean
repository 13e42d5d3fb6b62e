import Mlibc.GetoptParse

/-!
# Words that are parsed correctly

`getopt_common` takes no argument that begins with a dash from the next word, stops when an
argument is missing, drops the rest of a word behind an unknown option, and keeps its position
when a word of several options ends.
-/

namespace Mlibc.Getopt

open Options List

namespace Options

variable (opts : Options)

def noOptions : List Text → Bool
  | [] => true
  | word :: rest =>
    if isOptionArg word then false
    else if word = [dash, dash] then true
    else
      match opts.lead with
      | .plus => true
      | _ => noOptions rest

def cleanWord : Text → Bool
  | [] => true
  | c :: more =>
    match opts.argument c with
    | none => more = [] && c ∉ opts.text
    | some .absent => cleanWord more
    | some .optional => true
    | some .required => true

/-- No argument is missing or a word with a dash, and only the last word of options has several
without an argument. -/
def clean : List Text → Bool
  | [] => true
  | word :: rest =>
    if isOptionArg word then
      opts.cleanWord (word.drop 1) &&
        match opts.cluster (word.drop 1), rest with
        | (outputs, none), rest =>
          if outputs.length = 1 then clean rest else opts.noOptions rest
        | (_, some _), [] => false
        | (_, some _), next :: rest => next.head? ≠ some dash && clean rest
    else if word = [dash, dash] then true
    else
      match opts.lead with
      | .plus => true
      | _ => clean rest

/-- No option stands behind an operand. -/
def inOrder : List Text → Bool
  | [] => true
  | word :: rest =>
    if isOptionArg word then
      match opts.cluster (word.drop 1), rest with
      | (_, none), rest => inOrder rest
      | (_, some _), [] => true
      | (_, some _), _ :: rest => inOrder rest
    else if word = [dash, dash] then true
    else
      match opts.lead with
      | .plus => true
      | .minus => inOrder rest
      | _ => opts.noOptions rest

/-- The words behind a word of options are clean for the position that is left over. -/
def cleanAfter (optpos : Nat) (rest : List Text) : Bool :=
  if optpos = 1 then opts.clean rest else opts.noOptions rest

def cleanFrom (optpos : Nat) (chars : Text) (rest : List Text) : Bool :=
  opts.cleanWord chars &&
    match opts.cluster chars, rest with
    | (outputs, none), rest => opts.cleanAfter (optpos + outputs.length - 1) rest
    | (_, some _), [] => false
    | (_, some _), next :: rest => next.head? ≠ some dash && opts.clean rest

end Options

example (opts : Options) : opts.cleanFrom 1 [] [[dash, dash], [dash, 97]] = true := by
  simp only [Options.cleanFrom, Options.cleanWord, Options.cluster, Options.cleanAfter]
  unfold Options.clean
  rfl

variable {opts : Options} {c : UInt8} {word more : Text} {rest : List Text} {optpos : Nat}

theorem clean_option (isOption : isOptionArg word = true) :
    opts.clean (word :: rest) = opts.cleanFrom 1 (word.drop 1) rest := by
  unfold clean cleanFrom
  rw [if_pos isOption]
  simp only [cleanAfter, Nat.add_sub_cancel_left]

theorem cleanFrom_absent (known : opts.argument c = some .absent)
    (clean : opts.cleanFrom optpos (c :: more) rest = true) :
    if more = [] then opts.cleanAfter optpos rest = true
    else opts.cleanFrom (optpos + 1) more rest = true := by
  simp only [cleanFrom, cleanWord, cluster, known] at clean
  split_ifs with last
  · subst last
    exact (Bool.and_eq_true_iff.mp clean).2
  unfold cleanFrom
  cases ends : opts.cluster more with
  | mk outputs needs =>
    rw [ends] at clean
    cases needs with
    | none =>
      simp only [Nat.add_right_comm optpos 1]
      exact clean
    | some _ => cases rest <;> exact clean

theorem cleanFrom_optional (known : opts.argument c = some .optional)
    (clean : opts.cleanFrom optpos (c :: more) rest = true) :
    opts.cleanAfter optpos rest = true := by
  simp only [cleanFrom, cleanWord, cluster, known] at clean
  exact clean

/-- The words that are still to be parsed, from a position in the first one, and their options. -/
inductive Ready (opts : Options) : Nat → List Text → List Output → Prop where
  | fresh {words : List Text} : opts.clean words = true →
      Ready opts 1 words (opts.parse false words)
  | finished {optpos : Nat} {words : List Text} : opts.noOptions words = true →
      Ready opts optpos words (opts.parse false words)
  | inside {optpos : Nat} {operands : List Text} {word : Text} {rest : List Text} :
      (∀ operand ∈ operands, dashed operand = false) →
      (operands = [] ∨ opts.lead = .plain ∨ opts.lead = .colon) →
      isOptionArg word = true → 0 < optpos → optpos < word.length →
      opts.cleanFrom optpos (word.drop optpos) rest = true →
      Ready opts optpos (operands ++ word :: rest) (opts.outputs (word.drop optpos) rest)

theorem dashed_iff : dashed word = true ↔ isOptionArg word = true ∨ word = [dash, dash] := by
  match word with
  | [] => simp [dashed, isOptionArg]
  | [c] => simp [dashed, isOptionArg]
  | [c, d] => by_cases separator : d = dash <;> simp [dashed, isOptionArg, separator]
  | c :: d :: e :: more => simp [dashed, isOptionArg]

variable {expected : List Output}

theorem ready_cases {words : List Text} (ready : Ready opts optpos words expected) :
    (expected = opts.parse false words ∧
      (optpos = 1 ∧ opts.clean words = true ∨ opts.noOptions words = true)) ∨
    ∃ operands word rest, words = operands ++ word :: rest ∧
      (∀ operand ∈ operands, dashed operand = false) ∧
      (operands = [] ∨ opts.lead = .plain ∨ opts.lead = .colon) ∧
      isOptionArg word = true ∧ 0 < optpos ∧ optpos < word.length ∧
      opts.cleanFrom optpos (word.drop optpos) rest = true ∧
      expected = opts.outputs (word.drop optpos) rest := by
  cases ready with
  | fresh clean => exact .inl ⟨rfl, .inl ⟨rfl, clean⟩⟩
  | finished none => exact .inl ⟨rfl, .inr none⟩
  | inside operands lead isOption pos inside clean =>
    exact .inr ⟨_, _, _, rfl, operands, lead, isOption, pos, inside, clean, rfl⟩

theorem ready_nil (ready : Ready opts optpos [] expected) : expected = [] := by
  obtain ⟨rfl, _⟩ | ⟨operands, word, rest, words, _⟩ := ready_cases ready
  · rfl
  · cases operands <;> cases words

theorem ready_option (ready : Ready opts optpos (word :: rest) expected)
    (isOption : isOptionArg word = true) :
    0 < optpos ∧ optpos < word.length ∧ opts.cleanFrom optpos (word.drop optpos) rest = true ∧
      expected = opts.outputs (word.drop optpos) rest := by
  obtain ⟨rfl, ⟨rfl, clean⟩ | none⟩ |
    ⟨operands, _, _, words, operand, _, _, pos, inside, clean, output⟩ := ready_cases ready
  · have long : 1 < word.length := by
      match word with
      | [] => simp [isOptionArg] at isOption
      | [c] => simp [isOptionArg] at isOption
      | c :: d :: more => exact Nat.succ_lt_succ (Nat.succ_pos _)
    rw [clean_option isOption] at clean
    exact ⟨Nat.one_pos, long, clean, parse_option isOption⟩
  · rw [noOptions, if_pos isOption] at none
    cases none
  cases operands with
  | nil =>
    cases words
    exact ⟨pos, inside, clean, output⟩
  | cons first operands =>
    cases words
    have notDashed := operand word mem_cons_self
    rw [dashed_iff.mpr (.inl isOption)] at notDashed
    cases notDashed

theorem ready_other (ready : Ready opts optpos (word :: rest) expected)
    (notOption : isOptionArg word = false) :
    (expected = opts.parse false (word :: rest) ∧ (optpos = 1 ∧ opts.clean (word :: rest) = true ∨
        opts.noOptions (word :: rest) = true)) ∨
    dashed word = false ∧ (opts.lead = .plain ∨ opts.lead = .colon) ∧
      Ready opts optpos rest expected := by
  obtain parsed | ⟨operands, first, later, words, operand, lead, isOption, pos, inside,
    clean, output⟩ := ready_cases ready
  · exact .inl parsed
  right
  cases operands with
  | nil =>
    cases words
    rw [isOption] at notOption
    cases notOption
  | cons skipped operands =>
    cases words
    obtain ⟨notDashed, others⟩ := forall_mem_cons.mp operand
    have skips := lead.resolve_left (cons_ne_nil _ _)
    rw [output]
    exact ⟨notDashed, skips, .inside others (.inr skips) isOption pos inside clean⟩

theorem ready_separator (ready : Ready opts optpos ([dash, dash] :: rest) expected) :
    expected = [] := by
  obtain ⟨rfl, _⟩ | ⟨notDashed, _⟩ := ready_other ready rfl
  · unfold parse
    rw [if_neg (by decide), if_pos rfl]
  · cases notDashed

section Operand

variable (notDashed : dashed word = false)

include notDashed

theorem not_option_or_separator : isOptionArg word = false ∧ word ≠ [dash, dash] := by
  have neither := mt dashed_iff.mpr (Bool.eq_false_iff.mp notDashed)
  rw [not_or, Bool.not_eq_true] at neither
  exact neither

theorem parse_operand : opts.parse false (word :: rest) =
    match opts.lead with
    | .plus => []
    | .minus => (1, some word) :: opts.parse false rest
    | _ => opts.parse false rest := by
  obtain ⟨notOption, notSeparator⟩ := not_option_or_separator notDashed
  conv_lhs => unfold parse
  rewrite [if_neg (Bool.eq_false_iff.mp notOption), if_neg notSeparator]
  cases opts.lead <;> rfl

theorem clean_operand : opts.clean (word :: rest) =
    match opts.lead with
    | .plus => true
    | _ => opts.clean rest := by
  obtain ⟨notOption, notSeparator⟩ := not_option_or_separator notDashed
  conv_lhs => unfold clean
  rw [if_neg (Bool.eq_false_iff.mp notOption), if_neg notSeparator]

theorem noOptions_operand : opts.noOptions (word :: rest) =
    match opts.lead with
    | .plus => true
    | _ => opts.noOptions rest := by
  obtain ⟨notOption, notSeparator⟩ := not_option_or_separator notDashed
  rw [noOptions, if_neg (Bool.eq_false_iff.mp notOption), if_neg notSeparator]

theorem ready_plus (ready : Ready opts optpos (word :: rest) expected)
    (lead : opts.lead = .plus) : expected = [] := by
  obtain ⟨rfl, _⟩ | ⟨_, skips, _⟩ := ready_other ready (not_option_or_separator notDashed).1
  · rw [parse_operand notDashed, lead]
  · simp [lead] at skips

theorem ready_minus (ready : Ready opts optpos (word :: rest) expected)
    (lead : opts.lead = .minus) :
    expected = (1, some word) :: opts.parse false rest ∧
      Ready opts optpos rest (opts.parse false rest) := by
  obtain ⟨rfl, parsed⟩ | ⟨_, skips, _⟩ := ready_other ready (not_option_or_separator notDashed).1
  · rw [clean_operand notDashed, noOptions_operand notDashed, lead] at parsed
    rw [parse_operand notDashed, lead]
    refine ⟨rfl, ?_⟩
    obtain ⟨rfl, clean⟩ | none := parsed
    · exact .fresh clean
    · exact .finished none
  · simp [lead] at skips

theorem ready_skip (lead : opts.lead = .plain ∨ opts.lead = .colon) :
    Ready opts optpos (word :: rest) expected ↔ Ready opts optpos rest expected := by
  have same : opts.parse false (word :: rest) = opts.parse false rest ∧
      opts.clean (word :: rest) = opts.clean rest ∧
      opts.noOptions (word :: rest) = opts.noOptions rest := by
    rw [parse_operand notDashed, clean_operand notDashed, noOptions_operand notDashed]
    obtain lead | lead := lead <;> simp only [lead, and_self]
  obtain ⟨parsed, clean, none⟩ := same
  constructor
  · intro ready
    obtain ⟨rfl, whole⟩ | ⟨_, _, ready⟩ := ready_other ready (not_option_or_separator notDashed).1
    · rw [clean, none] at whole
      rw [parsed]
      obtain ⟨rfl, clean⟩ | none := whole
      · exact .fresh clean
      · exact .finished none
    · exact ready
  intro ready
  cases ready with
  | fresh ready =>
    rw [← parsed]
    exact .fresh (clean.trans ready)
  | finished ready =>
    rw [← parsed]
    exact .finished (none.trans ready)
  | inside operands _ isOption pos inside ready =>
    exact .inside (forall_mem_cons.mpr ⟨notDashed, operands⟩) (.inr lead) isOption pos inside ready

end Operand

theorem ready_skips {operands left : List Text}
    (notDashed : ∀ operand ∈ operands, dashed operand = false)
    (lead : opts.lead = .plain ∨ opts.lead = .colon) :
    Ready opts optpos (operands ++ left) expected ↔ Ready opts optpos left expected := by
  induction operands with
  | nil => rfl
  | cons operand operands ih =>
    obtain ⟨first, others⟩ := forall_mem_cons.mp notDashed
    rw [cons_append, ready_skip first lead, ih others]

end Mlibc.Getopt
