import Mlibc.DnsNames

/-! # Responses are read within bounds -/

namespace Mlibc.Dns

open PartialOrbit

section Format

variable (reply : Response)

/-- A name at an offset, with the offset behind it. -/
inductive NameAt : Nat → Nat → Prop
  | stops {it : Nat} (isForm : form reply it = .stops) : NameAt it (it + 1)
  | pointer {it offset behind : Nat} (isForm : form reply it = .pointer offset)
      (name : NameAt offset behind) : NameAt it (it + 2)
  | label {it later behind : Nat} (isForm : form reply it = .label later)
      (name : NameAt later behind) : NameAt it behind

/-- A number of questions, from an offset to the one behind them. -/
inductive Questions : Nat → Nat → Nat → Prop
  | nil {it : Nat} : Questions 0 it it
  | cons {count it behind after : Nat} (name : NameAt reply it behind)
      (rest : Questions count (behind + 4) after) : Questions (count + 1) it after

def short (it : Nat) : Nat := (reply.getD it 0).toNat * 256 + (reply.getD (it + 1) 0).toNat

def Wanted (family : Family) (rrType : Nat) : Prop :=
  (rrType = recordA ∧ (family = .unspec ∨ family = .inet)) ∨
    (rrType = recordAaaa ∧ (family = .unspec ∨ family = .inet6))

/-- The data of the record whose type stands at an offset, and what is behind it. -/
inductive RecordData (family : Family) (it : Nat) : Nat → Prop
  | address (isWanted : Wanted family (short reply it))
      (inside : it + 10 + short reply (it + 8) ≤ reply.length)
      (fits : short reply (it + 8) ≤ addrSize) :
      RecordData family it (it + 10 + short reply (it + 8))
  | canonical {behind : Nat} (isCname : short reply it = recordCname)
      (name : NameAt reply (it + 10) behind) : RecordData family it behind
  | skipped (unwanted : ¬ Wanted family (short reply it))
      (notCname : short reply it ≠ recordCname) :
      RecordData family it (it + 10 + short reply (it + 8))

/-- A number of answers whose addresses fit. -/
inductive Answers (family : Family) : Nat → Nat → Prop
  | nil {it : Nat} : Answers family 0 it
  | cons {count it behind after : Nat} (name : NameAt reply it behind)
      (fixed : behind + 10 ≤ reply.length) (data : RecordData reply family behind after)
      (rest : Answers family count after) : Answers family (count + 1) it

/-- A response that `lookup_name_dns` reads: it is of no interest, or has the questions and answers
of its header. -/
def NameFormat (family : Family) : Prop :=
  short reply 0 ≠ identification ∨ short reply 2 % 16 = returnNxdomain ∨
    ∃ after, Questions reply (short reply 4) headerSize after ∧
      Answers reply family (short reply 6) after

/-- A response that `lookup_addr_dns` reads: its questions and its first answer. -/
def AddrFormat : Prop :=
  short reply 0 ≠ identification ∨ ∃ after, Questions reply (short reply 4) headerSize after ∧
      (short reply 6 = 0 ∨ ∃ behind, NameAt reply after behind ∧ behind + 10 ≤ reply.length ∧
          (short reply behind = recordPtr → ∃ last, NameAt reply (behind + 10) last))

end Format

variable {reply : Response} {it behind other : Nat} {res : Name} {fuel : Nat}

theorem nameAt_iff : NameAt reply it behind ↔
      match form reply it with
      | .outside => False
      | .stops => behind = it + 1
      | .pointer offset => behind = it + 2 ∧ ∃ last, NameAt reply offset last
      | .label later => NameAt reply later behind := by
  constructor
  · intro name
    cases name with
    | stops isForm => rw [isForm]
    | pointer isForm name => rw [isForm]; exact ⟨rfl, _, name⟩
    | label isForm name => rw [isForm]; exact name
  intro read
  cases isForm : form reply it with
  | outside => rw [isForm] at read; exact read.elim
  | stops =>
    rw [isForm] at read
    cases read
    exact .stops isForm
  | pointer offset =>
    rw [isForm] at read
    obtain ⟨rfl, last, name⟩ := read
    exact .pointer isForm name
  | label later =>
    rw [isForm] at read
    exact .label isForm read

theorem NameAt.unique (name : NameAt reply it behind) (nameToo : NameAt reply it other) :
    behind = other := by
  induction name generalizing other with
  | stops isForm =>
    rw [nameAt_iff, isForm] at nameToo
    exact nameToo.symm
  | pointer isForm _ _ =>
    rw [nameAt_iff, isForm] at nameToo
    exact nameToo.1.symm
  | label isForm _ ih =>
    rw [nameAt_iff, isForm] at nameToo
    exact ih nameToo

theorem Questions.unique {count : Nat} (questions : Questions reply count it behind)
    (questionsToo : Questions reply count it other) : behind = other := by
  induction questions with
  | nil =>
    cases questionsToo
    rfl
  | cons name rest ih =>
    cases questionsToo with
    | cons nameToo restToo =>
      cases name.unique nameToo
      exact ih restToo

/-- How a part of the parsing ends: `Short` of fuel, with what the format has, or with a fault where
it has nothing. -/
inductive Parsed {α β : Type} (Short : Prop) (Has : β → Prop) (value : α → β)
    (prog : Except Fault α) : Prop
  | outOfFuel (isFault : prog = .error .outOfFuel) (short : Short)
  | returned {result : α} (isOk : prog = .ok result) (has : Has (value result))
  | fault {fault : Fault} (isFault : prog = .error fault) (notFuel : fault ≠ .outOfFuel)
      (hasNot : ∀ wanted, ¬ Has wanted)

variable {Short : Prop}

section

variable {β α : Type} {Has : β → Prop} {value : α → β} {prog : Except Fault α}
  (parsed : Parsed Short Has value prog)

include parsed

theorem Parsed.congr {Has' : β → Prop}
    (same : ∀ wanted, Has wanted ↔ Has' wanted) : Parsed Short Has' value prog := by
  cases parsed with
  | outOfFuel isFault short => exact .outOfFuel isFault short
  | returned isOk has => exact .returned isOk ((same _).mp has)
  | fault isFault notFuel hasNot =>
    exact .fault isFault notFuel fun wanted has => hasNot wanted ((same wanted).mpr has)

theorem Parsed.bind {γ δ : Type} {Rest : β → δ → Prop} {last : γ → δ}
    {continuation : α → Except Fault γ}
    (unique : ∀ first second, Has first → Has second → first = second)
    (goesOn : ∀ result, Has (value result) →
      Parsed Short (Rest (value result)) last (continuation result)) :
    Parsed Short (fun wanted => ∃ first, Has first ∧ Rest first wanted) last
      (prog >>= continuation) := by
  cases parsed with
  | outOfFuel isFault short =>
    rw [isFault]
    exact .outOfFuel rfl short
  | fault isFault notFuel hasNot =>
    rw [isFault]
    exact .fault rfl notFuel fun wanted ⟨first, has, _⟩ => hasNot first has
  | @returned result isOk has =>
    rw [isOk]
    cases goesOn result has with
    | outOfFuel isFault short => exact .outOfFuel isFault short
    | returned isOk hasRest => exact .returned isOk ⟨_, has, hasRest⟩
    | fault isFault notFuel hasNot =>
      refine .fault isFault notFuel ?_
      rintro wanted ⟨first, hasFirst, hasRest⟩
      rw [unique first _ hasFirst has] at hasRest
      exact hasNot wanted hasRest

theorem Parsed.map {γ δ : Type} {Has' : δ → Prop} {last : γ → δ} {f : α → γ}
    (keeps : ∀ result, Has (value result) → Has' (last (f result)))
    (needs : ∀ wanted, Has' wanted → ∃ first, Has first) :
    Parsed Short Has' last (prog.map f) := by
  cases parsed with
  | outOfFuel isFault short => exact .outOfFuel (by rw [isFault]; rfl) short
  | returned isOk has => exact .returned (by rw [isOk]; rfl) (keeps _ has)
  | fault isFault notFuel hasNot =>
    refine .fault (by rw [isFault]; rfl) notFuel fun wanted has => ?_
    obtain ⟨first, hasFirst⟩ := needs wanted has
    exact hasNot first hasFirst

end

def RunsOut (reply : Response) (fuel : Nat) : Prop :=
  ∃ it res, readDnsName reply fuel it res = .error .outOfFuel

theorem readDnsName_reads (reply : Response) (fuel it : Nat) (res : Name) :
    Parsed True (NameAt reply it) Prod.snd (readDnsName reply fuel it res) := by
  induction fuel generalizing it res with
  | zero => exact .outOfFuel rfl trivial
  | succ fuel ih =>
    have read (behind : Nat) : NameAt reply it behind ↔ _ := nameAt_iff
    rw [readDnsName_succ]
    cases isForm : form reply it with
    | outside =>
      rw [isForm] at read
      exact .fault rfl nofun fun behind name => (read behind).mp name
    | stops => exact .returned rfl (.stops isForm)
    | pointer offset =>
      rw [isForm] at read
      exact (ih offset []).map (fun _ name => .pointer isForm name)
        fun behind name => ((read behind).mp name).2
    | label later =>
      rw [isForm] at read
      exact (ih later _).congr fun behind => (read behind).symm

theorem readDnsName_parsed (reply : Response) (fuel it : Nat) (res : Name) :
    Parsed (RunsOut reply fuel) (NameAt reply it) Prod.snd (readDnsName reply fuel it res) := by
  cases readDnsName_reads reply fuel it res with
  | outOfFuel isFault _ => exact .outOfFuel isFault ⟨it, res, isFault⟩
  | returned isOk name => exact .returned isOk name
  | fault isFault notFuel hasNot => exact .fault isFault notFuel hasNot

theorem shortAt_eq (reply : Response) (it : Nat) : shortAt reply it =
      if it + 2 ≤ reply.length then .ok (short reply it) else .error .outside := by
  rw [shortAt, short, byteAt, byteAt, List.getD_eq_getElem?_getD, List.getD_eq_getElem?_getD]
  by_cases inside : it + 2 ≤ reply.length
  · rw [if_pos inside, List.getElem?_eq_getElem (by omega), List.getElem?_eq_getElem (by omega)]
    rfl
  rw [if_neg inside, List.getElem?_eq_none (show reply.length ≤ it + 1 by omega)]
  cases reply[it]? <;> rfl

theorem skipQuestions_parsed (reply : Response) (fuel count it : Nat) :
    Parsed (RunsOut reply fuel) (Questions reply count it) id
      (skipQuestions reply fuel count it) := by
  induction count generalizing it with
  | zero => exact .returned rfl .nil
  | succ count ih =>
    have parsed : Parsed (RunsOut reply fuel) (fun after =>
        ∃ behind, NameAt reply it behind ∧ Questions reply count (behind + 4) after) id _ :=
      Parsed.bind (readDnsName_parsed reply fuel it [])
        (fun _ _ name nameToo => name.unique nameToo)
        fun result _ => ih (result.2 + 4)
    apply parsed.congr
    intro after
    constructor
    · rintro ⟨behind, name, rest⟩
      exact .cons name rest
    · intro questions
      cases questions with
      | cons name rest => exact ⟨_, name, rest⟩

theorem fixed_parsed {α β : Type} {Has : β → Prop} {value : α → β}
    {continuation : Nat → Nat → Except Fault α}
    (goesOn : behind + 10 ≤ reply.length →
      Parsed Short Has value (continuation (short reply behind) (short reply (behind + 8)))) :
    Parsed Short (fun wanted => behind + 10 ≤ reply.length ∧ Has wanted) value (do
        let rrType ← shortAt reply behind
        let _rrClass ← shortAt reply (behind + 2)
        let rrLen ← shortAt reply (behind + 8)
        continuation rrType rrLen) := by
  rw [shortAt_eq, shortAt_eq, shortAt_eq]
  by_cases fixed : behind + 10 ≤ reply.length
  · rw [if_pos (by omega), if_pos (by omega), if_pos (by omega)]
    exact (goesOn fixed).congr fun wanted => (and_iff_right fixed).symm
  refine @Parsed.fault _ _ _ _ _ _ .outside ?_ nofun fun wanted has => fixed has.1
  split_ifs <;> rfl

theorem copyAddr_parsed (reply : Response) (it length : Nat) :
    Parsed Short (fun _ : Unit => it + length ≤ reply.length ∧ length ≤ addrSize) (fun _ => ())
      (copyAddr reply it length) := by
  rw [copyAddr]
  by_cases inside : it + length ≤ reply.length
  · rw [if_pos inside]
    by_cases fits : length ≤ addrSize
    · rw [if_pos fits]
      exact .returned rfl ⟨inside, fits⟩
    · rw [if_neg fits]
      exact .fault rfl nofun fun _ has => fits has.2
  · rw [if_neg inside]
    exact .fault rfl nofun fun _ has => inside has.1

theorem addressRecord_parsed (wanted recordFamily : Family) (name : Name) (it length : Nat)
    (result : LookupResult) :
    Parsed Short (fun after => after = it + length ∧ (wanted = .unspec ∨ wanted = recordFamily →
          it + length ≤ reply.length ∧ length ≤ addrSize)) Prod.snd
      (addressRecord reply wanted recordFamily name it length result) := by
  rw [addressRecord]
  by_cases unwanted : wanted ≠ .unspec ∧ wanted ≠ recordFamily
  · rw [if_pos unwanted]
    exact .returned rfl ⟨rfl, fun isWanted => absurd isWanted (not_or.mpr unwanted)⟩
  rw [if_neg unwanted]
  have isWanted : wanted = .unspec ∨ wanted = recordFamily := by
    by_contra neither
    exact unwanted (not_or.mp neither)
  exact (copyAddr_parsed reply it length).map (fun _ has => ⟨rfl, fun _ => has⟩)
    fun after has => ⟨(), has.2 isWanted⟩

section Records

variable {family recordFamily : Family} {after : Nat}

theorem recordData_address (notCname : short reply it ≠ recordCname)
    (isFor : Wanted family (short reply it) ↔ family = .unspec ∨ family = recordFamily) :
    (after = it + 10 + short reply (it + 8) ∧ (family = .unspec ∨ family = recordFamily →
      it + 10 + short reply (it + 8) ≤ reply.length ∧
        short reply (it + 8) ≤ addrSize)) ↔ RecordData reply family it after := by
  constructor
  · rintro ⟨rfl, bounded⟩
    by_cases isWanted : Wanted family (short reply it)
    · obtain ⟨inside, fits⟩ := bounded (isFor.mp isWanted)
      exact .address isWanted inside fits
    · exact .skipped isWanted notCname
  intro data
  cases data with
  | address isWanted inside fits => exact ⟨rfl, fun _ => ⟨inside, fits⟩⟩
  | canonical isCname name => exact absurd isCname notCname
  | skipped unwanted _ => exact ⟨rfl, fun isWanted => absurd (isFor.mpr isWanted) unwanted⟩

theorem recordData_canonical (isCname : short reply it = recordCname) :
    NameAt reply (it + 10) after ↔ RecordData reply family it after := by
  have unwanted : ¬ Wanted family (short reply it) := by
    rw [Wanted, isCname]
    simp [recordCname, recordA, recordAaaa]
  constructor
  · exact .canonical isCname
  intro data
  cases data with
  | address isWanted _ _ => exact absurd isWanted unwanted
  | canonical _ name => exact name
  | skipped _ notCname => exact absurd isCname notCname

theorem recordData_skipped (notA : short reply it ≠ recordA)
    (notAaaa : short reply it ≠ recordAaaa) (notCname : short reply it ≠ recordCname) :
    after = it + 10 + short reply (it + 8) ↔ RecordData reply family it after := by
  have unwanted : ¬ Wanted family (short reply it) :=
    not_or.mpr ⟨fun isWanted => notA isWanted.1, fun isWanted => notAaaa isWanted.1⟩
  constructor
  · rintro rfl
    exact .skipped unwanted notCname
  intro data
  cases data with
  | address isWanted _ _ => exact absurd isWanted unwanted
  | canonical isCname _ => exact absurd isCname notCname
  | skipped _ _ => rfl

theorem recordData_unique {other : Nat} (data : RecordData reply family it after)
    (dataToo : RecordData reply family it other) : after = other := by
  by_cases isCname : short reply it = recordCname
  · exact ((recordData_canonical isCname).mpr data).unique
      ((recordData_canonical isCname).mpr dataToo)
  have isNext : ∀ {place}, RecordData reply family it place →
      place = it + 10 + short reply (it + 8) := by
    intro place placed
    cases placed with
    | address _ _ _ => rfl
    | canonical isCname' _ => exact absurd isCname' isCname
    | skipped _ _ => rfl
  rw [isNext data, isNext dataToo]

end Records

theorem nameAnswer_parsed (reply : Response) (fuel : Nat) (family : Family) (it : Nat)
    (result : LookupResult) :
    Parsed (RunsOut reply fuel) (fun after => ∃ behind, NameAt reply it behind ∧
        behind + 10 ≤ reply.length ∧ RecordData reply family behind after) Prod.snd
      (nameAnswer reply fuel family it result) := by
  apply Parsed.bind (readDnsName_parsed reply fuel it [])
    (fun _ _ name nameToo => name.unique nameToo)
  rintro ⟨dnsName, behind⟩ -
  apply fixed_parsed
  intro fixed
  by_cases isA : short reply behind = recordA
  · rw [if_pos isA]
    apply (addressRecord_parsed family .inet dnsName (behind + 10) _ result).congr
    intro after
    apply recordData_address
    · rw [isA]
      decide
    · rw [Wanted, isA]
      simp [recordA, recordAaaa]
  rw [if_neg isA]
  by_cases isAaaa : short reply behind = recordAaaa
  · rw [if_pos isAaaa]
    apply (addressRecord_parsed family .inet6 dnsName (behind + 10) _ result).congr
    intro after
    apply recordData_address
    · rw [isAaaa]
      decide
    · rw [Wanted, isAaaa]
      simp [recordA, recordAaaa]
  rw [if_neg isAaaa]
  by_cases isCname : short reply behind = recordCname
  · rw [if_pos isCname]
    exact (readDnsName_parsed reply fuel (behind + 10) []).map
      (fun _ name => (recordData_canonical isCname).mp name)
      fun after data => ⟨after, (recordData_canonical isCname).mpr data⟩
  · rw [if_neg isCname]
    exact .returned rfl ((recordData_skipped isA isAaaa isCname).mp rfl)

theorem nameAnswers_parsed (reply : Response) (fuel : Nat) (family : Family) (count it : Nat)
    (result : LookupResult) :
    Parsed (RunsOut reply fuel) (fun _ : Unit => Answers reply family count it) (fun _ => ())
      (nameAnswers reply fuel family count it result) := by
  induction count generalizing it result with
  | zero => exact .returned rfl .nil
  | succ count ih =>
    have unique : ∀ first second : Nat,
        (∃ behind, NameAt reply it behind ∧ behind + 10 ≤ reply.length ∧
          RecordData reply family behind first) →
        (∃ behind, NameAt reply it behind ∧ behind + 10 ≤ reply.length ∧
          RecordData reply family behind second) → first = second := by
      rintro first second ⟨behind, name, -, data⟩ ⟨behindToo, nameToo, -, dataToo⟩
      cases name.unique nameToo
      exact recordData_unique data dataToo
    have parsed : Parsed (RunsOut reply fuel) (fun _ : Unit => ∃ after,
        (∃ behind, NameAt reply it behind ∧ behind + 10 ≤ reply.length ∧
          RecordData reply family behind after) ∧
            Answers reply family count after) (fun _ => ()) _ :=
      Parsed.bind (nameAnswer_parsed reply fuel family it result) unique
        fun answer _ => ih answer.2 answer.1
    apply parsed.congr
    intro _
    constructor
    · rintro ⟨after, ⟨behind, name, fixed, data⟩, rest⟩
      exact .cons name fixed data rest
    · intro answers
      cases answers with
      | cons name fixed data rest => exact ⟨_, ⟨_, name, fixed, data⟩, rest⟩

end Mlibc.Dns
