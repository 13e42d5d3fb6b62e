import Mathlib.Tactic.Common
import Mlibc.Getopt

/-! # The parse of the words -/

namespace Mlibc.Getopt

/-- The character in front of the options, which says what becomes of operands and missing
arguments. -/
inductive Lead where
  | plain
  | colon
  | plus
  | minus
  deriving DecidableEq

/-- Whether an option has an argument. -/
inductive Argument where
  | absent
  | required
  | optional
  deriving DecidableEq

def isAlphanumeric (c : UInt8) : Bool :=
  (48 ≤ c && c ≤ 57) || (65 ≤ c && c ≤ 90) || (97 ≤ c && c ≤ 122)

/-- A description of options, with letters and digits. -/
structure Options where
  lead : Lead
  letters : List (UInt8 × Argument)
  alphanumeric : ∀ option ∈ letters, isAlphanumeric option.1 = true

def Lead.text : Lead → Text
  | .plain => []
  | .colon => [colonSign]
  | .plus => [plusSign]
  | .minus => [dash]

def Argument.text : Argument → Text
  | .absent => []
  | .required => [colonSign]
  | .optional => [colonSign, colonSign]

def lettersText (letters : List (UInt8 × Argument)) : Text :=
  letters.flatMap fun option => option.1 :: option.2.text

def Options.text (opts : Options) : Text := opts.lead.text ++ lettersText opts.letters

def Options.argument (opts : Options) (c : UInt8) : Option Argument :=
  opts.letters.lookup c

abbrev Output := UInt8 × Option Text

def Options.cluster (opts : Options) : Text → List Output × Option UInt8
  | [] => ([], none)
  | c :: more =>
    match opts.argument c with
    | none => ((questionMark, none) :: (opts.cluster more).1, (opts.cluster more).2)
    | some .absent => ((c, none) :: (opts.cluster more).1, (opts.cluster more).2)
    | some .optional => ([(c, if more = [] then none else some more)], none)
    | some .required => if more = [] then ([], some c) else ([(c, some more)], none)

def Lead.missing : Lead → UInt8
  | .colon => colonSign
  | _ => questionMark

/-- The options and arguments of the words.  With `POSIXLY_CORRECT` the first operand ends them. -/
def Options.parse (opts : Options) (posixlyCorrect : Bool) : List Text → List Output
  | [] => []
  | word :: rest =>
    if isOptionArg word then
      match opts.cluster (word.drop 1), rest with
      | (outputs, none), rest => outputs ++ opts.parse posixlyCorrect rest
      | (outputs, some _), [] => outputs ++ [(opts.lead.missing, none)]
      | (outputs, some c), next :: rest =>
        outputs ++ (c, some next) :: opts.parse posixlyCorrect rest
    else if word = [dash, dash] then []
    else
      match opts.lead with
      | .plus => []
      | .minus => (1, some word) :: opts.parse posixlyCorrect rest
      | _ => if posixlyCorrect then [] else opts.parse posixlyCorrect rest

def Options.outputs (opts : Options) (chars : Text) (rest : List Text) : List Output :=
  match opts.cluster chars, rest with
  | (outputs, none), rest => outputs ++ opts.parse false rest
  | (outputs, some _), [] => outputs ++ [(opts.lead.missing, none)]
  | (outputs, some c), next :: rest => outputs ++ (c, some next) :: opts.parse false rest

example (opts : Options) : opts.parse false [[dash, dash], [dash, 97]] = [] := by
  unfold Options.parse
  rfl

section Outputs

variable {opts : Options} {c : UInt8} {more : Text} {rest : List Text}

theorem parse_option {word : Text} (isOption : isOptionArg word = true) :
    opts.parse false (word :: rest) = opts.outputs (word.drop 1) rest := by
  unfold Options.parse Options.outputs
  rw [if_pos isOption]

theorem outputs_nil : opts.outputs [] rest = opts.parse false rest := rfl

theorem outputs_unknown (unknown : opts.argument c = none) :
    opts.outputs (c :: more) rest = (questionMark, none) :: opts.outputs more rest := by
  simp only [Options.outputs, Options.cluster, unknown]
  cases opts.cluster more with
  | mk outputs needs =>
    cases needs with
    | none => rfl
    | some _ => cases rest <;> rfl

theorem outputs_absent (known : opts.argument c = some .absent) :
    opts.outputs (c :: more) rest = (c, none) :: opts.outputs more rest := by
  simp only [Options.outputs, Options.cluster, known]
  cases opts.cluster more with
  | mk outputs needs =>
    cases needs with
    | none => rfl
    | some _ => cases rest <;> rfl

theorem outputs_optional (known : opts.argument c = some .optional) :
    opts.outputs (c :: more) rest =
      (c, if more = [] then none else some more) :: opts.parse false rest := by
  simp only [Options.outputs, Options.cluster, known]
  rfl

theorem outputs_attached (known : opts.argument c = some .required) (attached : more ≠ []) :
    opts.outputs (c :: more) rest = (c, some more) :: opts.parse false rest := by
  simp only [Options.outputs, Options.cluster, known, if_neg attached]
  rfl

theorem outputs_separate (known : opts.argument c = some .required) (next : Text) :
    opts.outputs [c] (next :: rest) = (c, some next) :: opts.parse false rest := by
  simp only [Options.outputs, Options.cluster, known]
  rfl

end Outputs

theorem strchr_of_notMem {text : Text} {c : UInt8} (nz : c ≠ 0) (absent : c ∉ text) :
    strchr text c = none := by
  induction text with
  | nil => exact if_neg nz
  | cons head rest ih =>
    rw [List.mem_cons, not_or] at absent
    rw [strchr, if_neg (Ne.symm absent.1)]
    exact ih absent.2

theorem strchr_append {first : Text} {c : UInt8} (absent : c ∉ first) (last : Text) :
    strchr (first ++ last) c = strchr last c := by
  induction first with
  | nil => rfl
  | cons head rest ih =>
    rw [List.mem_cons, not_or] at absent
    rw [List.cons_append, strchr, if_neg (Ne.symm absent.1)]
    exact ih absent.2

theorem ne_of_isAlphanumeric {c d : UInt8} (alphanumeric : isAlphanumeric c = true)
    (not : isAlphanumeric d = false) : c ≠ d := by
  rintro rfl
  rw [alphanumeric] at not
  cases not

def Marks (opt : Text) : Argument → Prop
  | .absent => ∃ suffix, charAt opt 1 = some suffix ∧ suffix ≠ colonSign
  | .required => charAt opt 1 = some colonSign ∧
      ∃ suffix, charAt opt 2 = some suffix ∧ suffix ≠ colonSign
  | .optional => charAt opt 1 = some colonSign ∧ charAt opt 2 = some colonSign

variable {letters : List (UInt8 × Argument)}

section

variable (alphanumeric : ∀ option ∈ letters, isAlphanumeric option.1 = true)

include alphanumeric

theorem marks_letter (c : UInt8)
    (argument : Argument) : Marks (c :: argument.text ++ lettersText letters) argument := by
  have head : ∃ suffix, charAt (lettersText letters) 0 = some suffix ∧ suffix ≠ colonSign := by
    cases letters with
    | nil => exact ⟨0, rfl, by decide⟩
    | cons option letters =>
      exact ⟨option.1, rfl, ne_of_isAlphanumeric (alphanumeric option List.mem_cons_self) rfl⟩
  cases argument with
  | absent => exact head
  | required => exact ⟨rfl, head⟩
  | optional => exact ⟨rfl, rfl⟩

theorem strchr_letter {c : UInt8} {argument : Argument} (known : letters.lookup c = some argument) :
    isAlphanumeric c = true ∧
      ∃ opt, strchr (lettersText letters) c = some opt ∧ Marks opt argument := by
  induction letters with
  | nil => cases known
  | cons option letters ih =>
    obtain ⟨d, other⟩ := option
    obtain ⟨first, later⟩ := List.forall_mem_cons.mp alphanumeric
    rw [List.lookup_cons] at known
    by_cases same : c = d
    · subst same
      simp only [BEq.rfl, Option.some.injEq] at known
      subst known
      refine ⟨first, _, if_pos rfl, ?_⟩
      exact marks_letter later c other
    have apart : (c == d) = false := by simpa using same
    rw [apart] at known
    obtain ⟨isCh, opt, found, marks⟩ := ih later known
    refine ⟨isCh, opt, ?_, marks⟩
    change strchr ((d :: other.text) ++ lettersText letters) c = some opt
    rw [strchr_append]
    · exact found
    · have notColon : c ≠ colonSign := ne_of_isAlphanumeric isCh rfl
      cases other <;> simp [Argument.text, same, notColon]

end

theorem strchr_known {opts : Options} {c : UInt8} {argument : Argument}
    (known : opts.argument c = some argument) :
    isAlphanumeric c = true ∧ ∃ opt, strchr opts.text c = some opt ∧ Marks opt argument := by
  obtain ⟨isCh, opt, found, marks⟩ := strchr_letter opts.alphanumeric known
  refine ⟨isCh, opt, ?_, marks⟩
  rw [Options.text, strchr_append]
  · exact found
  have notColon : c ≠ colonSign := ne_of_isAlphanumeric isCh rfl
  have notPlus : c ≠ plusSign := ne_of_isAlphanumeric isCh rfl
  have notDash : c ≠ dash := ne_of_isAlphanumeric isCh rfl
  cases opts.lead <;> simp [Lead.text, notColon, notPlus, notDash]

end Mlibc.Getopt
