import Mathlib.Data.List.Induction
import Mlibc.GetoptStep

/-! # One call -/

namespace Mlibc.Getopt

open List Options

section Moves

variable {front middle left : List Text} {word : Text}

theorem insertIdx_front : (front ++ left).insertIdx front.length word = front ++ word :: left := by
  induction front with
  | nil => rfl
  | cons head front ih => exact congrArg (head :: ·) ih

theorem permute_append :
    permute (front ++ middle ++ word :: left) front.length (front.length + middle.length) =
      front ++ word :: middle ++ left := by
  have here : (front ++ middle ++ word :: left)[front.length + middle.length]? = some word := by
    rw [← length_append, getElem?_append_right (Nat.le_refl _), Nat.sub_self]
    rfl
  have erased : (front ++ middle ++ word :: left).eraseIdx (front.length + middle.length) =
      front ++ (middle ++ left) := by
    rw [← length_append, eraseIdx_append_of_length_le (Nat.le_refl _), Nat.sub_self, append_assoc]
    rfl
  rw [permute, here]
  change ((front ++ middle ++ word :: left).eraseIdx _).insertIdx _ word = _
  rw [erased, insertIdx_front, append_assoc, cons_append]

theorem permuteTimes_append (used : List Text) :
    permuteTimes front.length (front.length + middle.length + used.length - 1) used.length
        (front ++ middle ++ used ++ left) = front ++ used ++ middle ++ left := by
  induction used using reverseRecOn generalizing middle left with
  | nil => simp [permuteTimes]
  | append_singleton used last ih =>
    have position : front.length + middle.length + (used ++ [last]).length - 1 =
        front.length + (middle ++ used).length := by
      simp only [length_append, length_singleton]
      omega
    have moved : permute (front ++ middle ++ (used ++ [last]) ++ left) front.length
        (front.length + (middle ++ used).length) = front ++ (last :: middle) ++ used ++ left := by
      have split : front ++ middle ++ (used ++ [last]) ++ left =
          front ++ (middle ++ used) ++ last :: left := by
        simp only [append_assoc, singleton_append]
      rw [split, permute_append]
      simp only [append_assoc, cons_append]
    have later : front.length + (middle ++ used).length =
        front.length + (last :: middle).length + used.length - 1 := by
      simp only [length_append, length_cons]
      omega
    have count : (used ++ [last]).length = used.length + 1 := by simp
    rw [position, count, permuteTimes, moved, later, ih]
    simp only [append_assoc, cons_append, nil_append]

end Moves

theorem head_text (opts : Options) : (opts.text.head? = some plusSign ↔ opts.lead = .plus) ∧
      (opts.text.head? = some dash ↔ opts.lead = .minus) := by
  obtain ⟨lead, letters, alphanumeric⟩ := opts
  cases lead with
  | plain =>
    cases letters with
    | nil => simp [text, Lead.text, lettersText]
    | cons option letters =>
      have isCh := alphanumeric option mem_cons_self
      have notPlus : option.1 ≠ plusSign := ne_of_isAlphanumeric isCh rfl
      have notDash : option.1 ≠ dash := ne_of_isAlphanumeric isCh rfl
      simp [text, Lead.text, lettersText, notPlus, notDash]
  | colon => simp [text, Lead.text, colonSign, plusSign, dash]
  | plus | minus => simp [text, Lead.text, plusSign, dash]

section Search

variable {front operands rest : List Text} {word : Text}

theorem exists_dashed (words : List Text) : (∀ operand ∈ words, dashed operand = false) ∨
      ∃ operands word rest, words = operands ++ word :: rest ∧
        (∀ operand ∈ operands, dashed operand = false) ∧ dashed word = true := by
  induction words with
  | nil => simp
  | cons first words ih =>
    cases isDashed : dashed first with
    | true => exact .inr ⟨[], first, words, rfl, by simp, isDashed⟩
    | false =>
      obtain all | ⟨operands, word, rest, rfl, others, later⟩ := ih
      · exact .inl (forall_mem_cons.mpr ⟨isDashed, all⟩)
      · exact .inr ⟨first :: operands, word, rest, rfl,
          forall_mem_cons.mpr ⟨isDashed, others⟩, later⟩

end Search

/-- The words that are skipped are in front of those that are still to be parsed. -/
structure Pending (opts : Options) (front words : List Text) (expected : List Output)
    (s : State) : Prop where
  program : front ≠ []
  argv : s.argv = front ++ words
  optind : s.optind = front.length
  noNul : ∀ word ∈ words, 0 ∉ word
  ready : Ready opts s.optpos words expected

/-- What a call does: it returns -1 if nothing is expected, and otherwise what is expected
first. -/
def Answers (opts : Options) (expected : List Output)
    (result : Option (Option UInt8 × State)) : Prop :=
  (expected = [] ∧ ∃ next, result = some (none, next)) ∨
    ∃ c next front words out, result = some (some c, next) ∧
      expected = (c, opts.observe c next.optarg) :: out ∧
      Pending opts front words out next

section Call

variable {opts : Options} {front words : List Text} {expected : List Output} {s : State}

theorem Progress.pending {c : UInt8} {next : State} {used left : List Text} {out : List Output}
    (progress : Progress opts front words expected c next used left out)
    (prog : front ≠ []) (noNul : ∀ word ∈ words, 0 ∉ word) :
    Pending opts (front ++ used) left out next := by
  obtain ⟨argv, rfl, optind, _, ready⟩ := progress
  constructor
  · simp [prog]
  · rw [argv, append_assoc]
  · rw [optind, length_append]
  · intro word mem
    exact noNul word (mem_append_right used mem)
  · exact ready

theorem Pending.started (pending : Pending opts front words expected s) : s.optind ≠ 0 := by
  rw [pending.optind]
  exact mt length_eq_zero_iff.mp pending.program

theorem Pending.here {word : Text} {rest : List Text}
    (pending : Pending opts front (word :: rest) expected s) :
    s.argv[s.optind]? = some word := by
  rw [pending.argv, pending.optind, getElem?_append_right (Nat.le_refl _), Nat.sub_self]
  rfl

variable (posixlyCorrect : Bool)

theorem getoptCommonInternal_option {word : Text} {rest : List Text}
    (pending : Pending opts front (word :: rest) expected s)
    (isOption : isOptionArg word = true) :
    ∃ c next used left out, getoptCommonInternal opts.text posixlyCorrect s = some (some c, next) ∧
        Progress opts front (word :: rest) expected c next used left out := by
  have here := pending.here
  obtain ⟨_, argv, optind, noNul, ready⟩ := pending
  obtain ⟨pos, inside, clean, rfl⟩ := ready_option ready isOption
  have step := shortOption_step argv optind isOption (noNul word mem_cons_self) pos inside clean
  simp only [getoptCommonInternal, here, if_pos isOption]
  exact step

theorem getoptCommonInternal_separator {rest : List Text}
    (pending : Pending opts front ([dash, dash] :: rest) expected s) :
    ∃ next, getoptCommonInternal opts.text posixlyCorrect s = some (none, next) := by
  refine ⟨{ s with optind := s.optind + 1 }, ?_⟩
  simp only [getoptCommonInternal, pending.here]
  rfl

theorem getoptCommonInternal_operand {word : Text} {rest : List Text}
    (pending : Pending opts front (word :: rest) expected s)
    (notDashed : dashed word = false) (lead : opts.lead = .plus ∨ opts.lead = .minus) :
    Answers opts expected (getoptCommonInternal opts.text posixlyCorrect s) := by
  obtain ⟨notOption, notSeparator⟩ := not_option_or_separator notDashed
  obtain ⟨isPlus, isMinus⟩ := head_text opts
  obtain plus | minus := lead
  · have notMinus : ¬some plusSign = some dash := by decide
    refine .inl ⟨ready_plus notDashed pending.ready plus, { s with optarg := none }, ?_⟩
    simp only [getoptCommonInternal, pending.here, notOption, Bool.false_eq_true, if_false,
      notSeparator, isPlus.mpr plus, notMinus, true_or, if_true]
  obtain ⟨output, ready⟩ := ready_minus notDashed pending.ready minus
  refine .inr ⟨1, { s with optarg := some word, optind := s.optind + 1 },
    front ++ [word], rest, opts.parse false rest, ?_, output, ?_⟩
  · simp only [getoptCommonInternal, pending.here, notOption, Bool.false_eq_true, if_false,
      notSeparator, isMinus.mpr minus, if_true]
  constructor
  · simp
  · rw [append_assoc]
    exact pending.argv
  · rw [length_append]
    exact congrArg (· + 1) pending.optind
  · exact fun other mem => pending.noNul other (mem_cons_of_mem _ mem)
  · exact ready

theorem getoptCommon_direct (pending : Pending opts front words expected s)
    (lead : opts.lead = .plus ∨ opts.lead = .minus) :
    Answers opts expected (getoptCommon opts.text posixlyCorrect s) := by
  have direct : opts.text.head? = some plusSign ∨ opts.text.head? = some dash :=
    lead.imp (head_text opts).1.mpr (head_text opts).2.mpr
  have internal : getoptCommon opts.text posixlyCorrect s =
      getoptCommonInternal opts.text posixlyCorrect s := by
    simp only [getoptCommon, if_neg pending.started, if_pos direct]
  rw [internal]
  cases words with
  | nil =>
    have past : s.argv[s.optind]? = none := by
      rw [pending.argv, pending.optind, append_nil]
      exact getElem?_eq_none (Nat.le_refl _)
    refine .inl ⟨ready_nil pending.ready, { s with optarg := none }, ?_⟩
    simp only [getoptCommonInternal, past]
  | cons word rest =>
    cases isDashed : dashed word with
    | false => exact getoptCommonInternal_operand posixlyCorrect pending isDashed lead
    | true =>
      obtain isOption | rfl := dashed_iff.mp isDashed
      · obtain ⟨c, next, used, left, out, returns, progress⟩ :=
          getoptCommonInternal_option posixlyCorrect pending isOption
        exact .inr ⟨c, next, _, left, out, returns, progress.output,
          progress.pending pending.program pending.noNul⟩
      · exact .inl ⟨ready_separator pending.ready,
          getoptCommonInternal_separator posixlyCorrect pending⟩

theorem pending_moved {operands : List Text} {c : UInt8} {next : State} {used left : List Text}
    {out : List Output}
    (progress : Progress opts (front ++ operands) words expected c next used left out)
    (prog : front ≠ []) (noNul : ∀ word ∈ operands ++ words, 0 ∉ word)
    (notDashed : ∀ operand ∈ operands, dashed operand = false)
    (lead : opts.lead = .plain ∨ opts.lead = .colon) :
    Pending opts (front ++ used) (operands ++ left) out { next with
        argv := permuteTimes front.length (next.optind - 1)
          (next.optind - (front.length + operands.length)) next.argv
        optind := front.length + (next.optind - (front.length + operands.length)) } := by
  obtain ⟨argv, rfl, optind, _, ready⟩ := progress
  rw [length_append] at optind
  have count : next.optind - (front.length + operands.length) = used.length := by omega
  constructor
  · simp [prog]
  · rw [count, argv, optind, ← append_assoc, permuteTimes_append, append_assoc _ operands]
  · rw [length_append, count]
  · intro word mem
    apply noNul
    simp only [mem_append] at mem ⊢
    exact mem.imp_right .inr
  · exact (ready_skips notDashed lead).mpr ready

theorem getoptCommon_skip (pending : Pending opts front words expected s)
    (lead : opts.lead = .plain ∨ opts.lead = .colon) :
    Answers opts expected (getoptCommon opts.text posixlyCorrect s) := by
  have skips : ¬(opts.text.head? = some plusSign ∨ opts.text.head? = some dash) := by
    rw [(head_text opts).1, (head_text opts).2]
    obtain lead | lead := lead <;> simp [lead]
  obtain notDashed | ⟨operands, word, rest, rfl, notDashed, isDashed⟩ := exists_dashed words
  · have search : findFrom dashed s.argv s.optind = none := by
      rw [pending.argv, pending.optind, findFrom, drop_left, findIdx?_eq_none_iff.mpr notDashed]
      rfl
    have nothing : expected = [] := by
      have ready := pending.ready
      rw [← append_nil words, ready_skips notDashed lead] at ready
      exact ready_nil ready
    refine .inl ⟨nothing, { s with optarg := none }, ?_⟩
    simp only [getoptCommon, if_neg pending.started, if_neg skips, search]
  have search : findFrom dashed s.argv s.optind = some (front.length + operands.length) := by
    rw [pending.argv, pending.optind, findFrom, drop_left, findIdx?_append,
      findIdx?_eq_none_iff.mpr notDashed, findIdx?_cons, if_pos isDashed]
    simp only [Option.map_some, Option.none_or, Nat.zero_add, Nat.add_comm front.length]
  have resumed : Pending opts (front ++ operands) (word :: rest) expected
      { s with optind := front.length + operands.length } := by
    constructor
    · simp [pending.program]
    · rw [append_assoc]
      exact pending.argv
    · rw [length_append]
    · exact fun other mem => pending.noNul other (mem_append_right _ mem)
    · exact (ready_skips notDashed lead).mp pending.ready
  obtain isOption | rfl := dashed_iff.mp isDashed
  · obtain ⟨c, next, used, left, out, returns, progress⟩ :=
      getoptCommonInternal_option posixlyCorrect resumed isOption
    simp only [getoptCommon, if_neg pending.started, search, returns]
    rw [pending.optind]
    split_ifs with moves
    · refine .inr ⟨c, _, front ++ used, operands ++ left, out, rfl, progress.output, ?_⟩
      exact pending_moved progress pending.program pending.noNul notDashed lead
    exact .inr ⟨c, next, _, left, out, rfl, progress.output,
      progress.pending resumed.program resumed.noNul⟩
  · obtain ⟨next, returns⟩ := getoptCommonInternal_separator posixlyCorrect resumed
    refine .inl ⟨ready_separator resumed.ready, ?_⟩
    simp only [getoptCommon, if_neg pending.started, search, returns]
    split_ifs
    · exact ⟨_, rfl⟩
    · exact ⟨_, rfl⟩

theorem getoptCommon_step (pending : Pending opts front words expected s) :
    Answers opts expected (getoptCommon opts.text posixlyCorrect s) := by
  cases lead : opts.lead with
  | plain => exact getoptCommon_skip posixlyCorrect pending (.inl lead)
  | colon => exact getoptCommon_skip posixlyCorrect pending (.inr lead)
  | plus => exact getoptCommon_direct posixlyCorrect pending (.inl lead)
  | minus => exact getoptCommon_direct posixlyCorrect pending (.inr lead)

end Call

end Mlibc.Getopt
