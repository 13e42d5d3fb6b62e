import Mlibc.DnsBounds

/-! # Whole responses -/

namespace Mlibc.Dns

open PartialOrbit

variable {reply : Response}

/-- However long the program runs, it reads only the response, and copies only what fits. -/
def InBounds {α : Type} (prog : Nat → Except Fault α) : Prop :=
  ∀ fuel, prog fuel ≠ .error .outside ∧ prog fuel ≠ .error .overflow

def Diverges {α : Type} (prog : Nat → Except Fault α) : Prop :=
  ∀ fuel, prog fuel = .error .outOfFuel

section Fuel

theorem not_runsOut (acyclic : ∀ it, Acyclic (next reply) it) :
    ∃ enough, ∀ fuel, enough ≤ fuel → ¬ RunsOut reply fuel := by
  have upTo : ∀ bound, ∃ enough, ∀ it < bound, ∀ fuel, enough ≤ fuel → ∀ res,
      readDnsName reply fuel it res ≠ .error .outOfFuel := by
    intro bound
    induction bound with
    | zero => exact ⟨0, fun it below => absurd below (Nat.not_lt_zero _)⟩
    | succ bound ih =>
      obtain ⟨enough, ends⟩ := ih
      obtain ⟨enoughToo, endsToo⟩ :=
        Ends.readDnsName_ne ((acyclic bound).ends (next_finite reply))
      refine ⟨max enough enoughToo, fun it below fuel isEnough => ?_⟩
      obtain isBelow | isBound := Nat.lt_succ_iff_lt_or_eq.mp below
      · exact ends it isBelow fuel ((Nat.le_max_left _ _).trans isEnough)
      · rw [isBound]
        exact endsToo fuel ((Nat.le_max_right _ _).trans isEnough)
  obtain ⟨enough, ends⟩ := upTo reply.length
  refine ⟨enough + 1, fun fuel isEnough ⟨it, res, ranOut⟩ => ?_⟩
  by_cases inside : it < reply.length
  · exact ends it inside fuel (Nat.le_of_succ_le isEnough) res ranOut
  · obtain ⟨less, rfl⟩ := Nat.exists_eq_add_of_le' ((Nat.le_add_left 1 _).trans isEnough)
    rw [readDnsName, byteAt_outside (List.getElem?_eq_none (not_lt.mp inside))] at ranOut
    cases ranOut

variable {α β : Type} {Has : β → Prop} {value : α → β} {prog : Nat → Except Fault α}
  (parsed : ∀ fuel, Parsed (RunsOut reply fuel) Has value (prog fuel))

include parsed

theorem inBounds_iff : InBounds prog ↔ Diverges prog ∨ ∃ wanted, Has wanted := by
  constructor
  · intro inBounds
    by_contra neither
    obtain ⟨notDiverges, hasNot⟩ := not_or.mp neither
    apply notDiverges
    intro fuel
    cases parsed fuel with
    | outOfFuel isFault _ => exact isFault
    | returned _ has => exact absurd ⟨_, has⟩ hasNot
    | @fault fault isFault notFuel _ =>
      cases fault with
      | outside => exact absurd isFault (inBounds fuel).1
      | overflow => exact absurd isFault (inBounds fuel).2
      | outOfFuel => exact absurd rfl notFuel
  · rintro (diverges | ⟨wanted, has⟩) fuel
    · simp [diverges fuel]
    cases parsed fuel with
    | outOfFuel isFault _ => simp [isFault]
    | returned isOk _ => simp [isOk]
    | fault _ _ hasNot => exact absurd has (hasNot wanted)

theorem Diverges.exists_cycle (diverges : Diverges prog) : ∃ it, ¬Acyclic (next reply) it := by
  by_contra acyclic
  obtain ⟨enough, isFuel⟩ := not_runsOut (not_exists_not.mp acyclic)
  apply isFuel enough le_rfl
  have outOfFuel := diverges enough
  cases parsed enough with
  | outOfFuel _ short => exact short
  | returned isOk _ => cases isOk.symm.trans outOfFuel
  | fault isFault notFuel _ =>
    cases isFault.symm.trans outOfFuel
    exact absurd rfl notFuel

end Fuel

section Responses

theorem questions_parsed {α : Type} {Rest : Nat → Prop} {continuation : Nat → Except Fault α}
    {fuel : Nat} (goesOn : ∀ it, Parsed (RunsOut reply fuel) (fun _ : Unit => Rest it)
      (fun _ => ()) (continuation it)) :
    Parsed (RunsOut reply fuel) (fun _ : Unit => ∃ after,
        Questions reply (short reply 4) headerSize after ∧ Rest after) (fun _ => ())
      (skipQuestions reply fuel (short reply 4) headerSize >>= continuation) := by
  apply Parsed.bind (skipQuestions_parsed reply fuel (short reply 4) headerSize)
  · intro first second questions questionsToo
    exact questions.unique questionsToo
  · intro it _
    exact goesOn it

theorem addrAnswers_parsed {noAns it numAns : Nat} (fuel nameSize : Nat) (someAns : noAns ≠ 0)
    (count : Nat) :
    Parsed (RunsOut reply fuel) (fun _ : Unit => ∃ behind, NameAt reply it behind ∧
        behind + 10 ≤ reply.length ∧
          (short reply behind = recordPtr → ∃ last, NameAt reply (behind + 10) last))
      (fun _ => ()) (addrAnswers reply fuel nameSize noAns (count + 1) it numAns) := by
  apply Parsed.bind (readDnsName_parsed reply fuel it [])
    (fun _ _ name nameToo => name.unique nameToo)
  rintro ⟨dnsName, behind⟩ -
  apply fixed_parsed
  intro fixed
  by_cases isPtr : short reply behind = recordPtr
  · rw [if_pos isPtr]
    simp only [← apply_ite pure]
    exact (readDnsName_parsed reply fuel (behind + 10) []).map (fun _ name _ => ⟨_, name⟩)
      fun _ named => named isPtr
  · rw [if_neg isPtr, if_pos (by omega)]
    exact .returned rfl fun isPtr' => absurd isPtr' isPtr

variable (header : headerSize ≤ reply.length)

include header

theorem nameResponse_eq (fuel : Nat) (family : Family) (result : LookupResult) :
    nameResponse reply fuel family result =
      if short reply 0 ≠ identification then .ok .fail
      else if short reply 2 % 16 = returnNxdomain then .ok .noname
      else do
        let it ← skipQuestions reply fuel (short reply 4) headerSize
        let answers ← nameAnswers reply fuel family (short reply 6) it result
        return .answers (short reply 6) answers := by
  have long : 12 ≤ reply.length := header
  rw [nameResponse, shortAt_eq, if_pos (by omega), shortAt_eq, if_pos (by omega), shortAt_eq,
    if_pos (by omega), shortAt_eq, if_pos (by omega)]
  rfl

theorem nameResponse_parsed (fuel : Nat) (family : Family) (result : LookupResult) :
    Parsed (RunsOut reply fuel) (fun _ : Unit => NameFormat reply family) (fun _ => ())
      (nameResponse reply fuel family result) := by
  rw [nameResponse_eq header]
  by_cases foreign : short reply 0 ≠ identification
  · rw [if_pos foreign]
    exact .returned rfl (.inl foreign)
  rw [if_neg foreign]
  by_cases noName : short reply 2 % 16 = returnNxdomain
  · rw [if_pos noName]
    exact .returned rfl (.inr (.inl noName))
  rw [if_neg noName]
  have goesOn : ∀ it : Nat, Parsed (RunsOut reply fuel)
      (fun _ : Unit => Answers reply family (short reply 6) it) (fun _ => ()) (do
        let answers ← nameAnswers reply fuel family (short reply 6) it result
        return NameOutcome.answers (short reply 6) answers) := by
    intro it
    exact (nameAnswers_parsed reply fuel family (short reply 6) it result).map
      (fun _ has => has) fun _ has => ⟨(), has⟩
  apply (questions_parsed goesOn).congr
  intro _
  exact ((or_iff_right foreign).trans (or_iff_right noName)).symm

theorem addrResponse_eq (fuel nameSize numAns : Nat) : addrResponse reply fuel nameSize numAns =
      if short reply 0 ≠ identification then .ok .fail
      else skipQuestions reply fuel (short reply 4) headerSize >>= fun it =>
        addrAnswers reply fuel nameSize (short reply 6) (short reply 6) it numAns := by
  have long : 12 ≤ reply.length := header
  rw [addrResponse, shortAt_eq, if_pos (by omega), shortAt_eq, if_pos (by omega), shortAt_eq,
    if_pos (by omega)]
  rfl

theorem addrResponse_parsed (fuel nameSize numAns : Nat) :
    Parsed (RunsOut reply fuel) (fun _ : Unit => AddrFormat reply) (fun _ => ())
      (addrResponse reply fuel nameSize numAns) := by
  rw [addrResponse_eq header]
  by_cases foreign : short reply 0 ≠ identification
  · rw [if_pos foreign]
    exact .returned rfl (.inl foreign)
  rw [if_neg foreign]
  have goesOn : ∀ it : Nat, Parsed (RunsOut reply fuel)
      (fun _ : Unit => short reply 6 = 0 ∨ ∃ behind, NameAt reply it behind ∧
        behind + 10 ≤ reply.length ∧
          (short reply behind = recordPtr → ∃ last, NameAt reply (behind + 10) last))
      (fun _ => ())
      (addrAnswers reply fuel nameSize (short reply 6) (short reply 6) it numAns) := by
    intro it
    generalize short reply 6 = noAns
    cases noAns with
    | zero => exact .returned rfl (.inl rfl)
    | succ count =>
      apply (addrAnswers_parsed fuel nameSize (Nat.succ_ne_zero count) count).congr
      intro _
      exact (or_iff_right (Nat.succ_ne_zero count)).symm
  apply (questions_parsed goesOn).congr
  intro _
  exact (or_iff_right foreign).symm

/-- A response is read within its bounds, and its addresses fit, exactly if it has the announced
format, or the reading never ends; then there is a cycle of compression pointers. -/
theorem responses_inBounds_iff (family : Family) (result : LookupResult) (nameSize numAns : Nat) :
    (InBounds (nameResponse reply · family result) ↔
        Diverges (nameResponse reply · family result) ∨ NameFormat reply family) ∧
      (InBounds (addrResponse reply · nameSize numAns) ↔
        Diverges (addrResponse reply · nameSize numAns) ∨ AddrFormat reply) ∧
      (Diverges (nameResponse reply · family result) ∨
          Diverges (addrResponse reply · nameSize numAns) →
        ∃ it, ¬Acyclic (next reply) it) := by
  have name (fuel : Nat) := nameResponse_parsed header fuel family result
  have addr (fuel : Nat) := addrResponse_parsed header fuel nameSize numAns
  refine ⟨?_, ?_, ?_⟩
  · rw [inBounds_iff name, exists_const]
  · rw [inBounds_iff addr, exists_const]
  · rintro (diverges | diverges)
    · exact diverges.exists_cycle name
    · exact diverges.exists_cycle addr

end Responses

theorem acyclic_of_readDnsName (fuel : Nat) (ended : ∀ it < reply.length,
    readDnsName reply fuel it [] ≠ .error .outOfFuel) (it : Nat) :
    Acyclic (next reply) it := by
  by_cases inside : it < reply.length
  · exact (ends_of_readDnsName (ended it inside)).acyclic
  · have isOutside : reply[it]? = none := List.getElem?_eq_none (not_lt.mp inside)
    exact Ends.acyclic (ends_of_none (by rw [next, form, isOutside]))

def oneAddress : Response :=
  [0, 123, 0x81, 0x80, 0, 1, 0, 1, 0, 0, 0, 0, 1, 97, 0, 0, 1, 0, 1, 0xc0, 12, 0, 1, 0, 1, 0, 0, 0,
    60, 0, 4, 192, 31, 3, 4]

/-- The address 192.31.3.4 would be a pointer to itself, but no name is read there. -/
theorem responses_inBounds_oneAddress : InBounds (nameResponse oneAddress · .inet ⟨[], [], []⟩) ∧
      InBounds (addrResponse oneAddress · 64 0) := by
  obtain ⟨name, addr, _⟩ :=
    @responses_inBounds_iff oneAddress (by decide +kernel) .inet ⟨[], [], []⟩ 64 0
  have question : NameAt oneAddress 12 15 := .label (by decide +kernel) (.stops (by decide +kernel))
  have questions : Questions oneAddress (short oneAddress 4) headerSize 19 := .cons question .nil
  have answer : NameAt oneAddress 19 21 := .pointer (by decide +kernel) question
  have data : RecordData oneAddress .inet 21 35 :=
    .address (.inl ⟨by decide +kernel, .inr rfl⟩) (by decide +kernel) (by decide +kernel)
  constructor
  · apply name.mpr
    exact .inr (.inr (.inr ⟨19, questions, .cons answer (by decide +kernel) data .nil⟩))
  · refine addr.mpr (.inr (.inr ⟨19, questions, .inr ⟨21, answer, by decide +kernel, ?_⟩⟩))
    intro isPtr
    exact absurd isPtr (by decide +kernel)

def headerOnly : Response := [0, 123, 0x81, 0x80, 0, 1, 0, 0, 0, 0, 0, 0]

def longAddress : Response :=
  [0, 123, 0x81, 0x80, 0, 0, 0, 1, 0, 0, 0, 0, 0, 0, 1, 0, 1, 0, 0, 0, 60, 0, 17, 1, 2, 3, 4, 5, 6,
    7, 8, 9, 10, 11, 12, 13, 14, 15, 16, 17]

theorem skipQuestions_headerOnly (fuel : Nat) :
    skipQuestions headerOnly (fuel + 1) (short headerOnly 4) headerSize = .error .outside := by
  rfl

theorem nameAnswers_longAddress (fuel : Nat) :
    nameAnswers longAddress (fuel + 1) .inet (short longAddress 6) headerSize ⟨[], [], []⟩ =
      .error .overflow := by
  have isOne : short longAddress 6 = 1 := by decide +kernel
  have isName : readDnsName longAddress (fuel + 1) headerSize [] = .ok ([], 13) := by
    rfl
  have isType : shortAt longAddress 13 = .ok recordA := by decide +kernel
  have isClass : shortAt longAddress 15 = .ok 1 := by decide +kernel
  have isLength : shortAt longAddress 21 = .ok 17 := by decide +kernel
  have isCopied : addressRecord longAddress .inet .inet [] 23 17 ⟨[], [], []⟩ =
      .error .overflow := by decide +kernel
  simp only [isOne, nameAnswers, nameAnswer, isName, isType, isClass, isLength, bind,
    Except.bind, if_true, isCopied]

/-- A header without its question, and an address record that is too long. -/
theorem responses_outOfBounds : (∀ it, Acyclic (next headerOnly) it) ∧
      (∀ fuel, nameResponse headerOnly (fuel + 1) .inet ⟨[], [], []⟩ = .error .outside) ∧
      (∀ fuel, addrResponse headerOnly (fuel + 1) 64 0 = .error .outside) ∧
      (∀ it, Acyclic (next longAddress) it) ∧
      ∀ fuel, nameResponse longAddress (fuel + 1) .inet ⟨[], [], []⟩ = .error .overflow := by
  refine ⟨acyclic_of_readDnsName 4 (by decide +kernel), fun fuel => ?_, fun fuel => ?_,
    acyclic_of_readDnsName 16 (by decide +kernel), fun fuel => ?_⟩
  · rw [nameResponse_eq (by decide +kernel), if_neg (by decide +kernel),
      if_neg (by decide +kernel), skipQuestions_headerOnly]
    rfl
  · rw [addrResponse_eq (by decide +kernel), if_neg (by decide +kernel), skipQuestions_headerOnly]
    rfl
  · have noQuestions : short longAddress 4 = 0 := by decide +kernel
    rw [nameResponse_eq (by decide +kernel), if_neg (by decide +kernel),
      if_neg (by decide +kernel), noQuestions, skipQuestions]
    simp only [bind, Except.bind, nameAnswers_longAddress]

end Mlibc.Dns
