import Mlibc.Dns
import Mlibc.PartialOrbit

/-! # Names in a response -/

namespace Mlibc.Dns

open PartialOrbit List

/-- What stands at an offset: nothing, the end of a name, a compression pointer, or a label. -/
inductive Form where
  | outside
  | stops
  | pointer (offset : Nat)
  | label (behind : Nat)
  deriving DecidableEq

def form (reply : Response) (it : Nat) : Form :=
  match reply[it]? with
  | none => .outside
  | some code =>
    if code &&& 0xc0 = 0xc0 then
      match reply[it + 1]? with
      | none => .outside
      | some low => .pointer (pointerOffset code low)
    else if code &&& 0xc0 = 0 then
      if code = 0 then .stops
      else if it + 1 + code.toNat < reply.length then .label (it + 1 + code.toNat)
      else .outside
    else .stops

def next (reply : Response) (it : Nat) : Option Nat :=
  match form reply it with
  | .pointer offset => some offset
  | .label behind => some behind
  | _ => none

variable {reply : Response} {it : Nat} {res : Name} {fuel : Nat}

section Equations

theorem byteAt_ok {byte : UInt8} (isByte : reply[it]? = some byte) :
    byteAt reply it = .ok byte := by
  rw [byteAt, isByte]

theorem byteAt_outside (isOutside : reply[it]? = none) : byteAt reply it = .error .outside := by
  rw [byteAt, isOutside]

theorem appendLabel_eq (count it : Nat) (res : Name) : appendLabel reply count it res =
      if count = 0 ∨ it + count ≤ reply.length then .ok (res ++ (reply.drop it).take count)
      else .error .outside := by
  induction count generalizing it res with
  | zero => simp [appendLabel]
  | succ count ih =>
    by_cases inside : it < reply.length
    · rw [appendLabel, byteAt_ok (getElem?_eq_getElem inside)]
      change appendLabel reply count (it + 1) _ = _
      rw [ih, append_assoc, singleton_append, ← take_succ_cons, ← drop_eq_getElem_cons inside]
      exact if_congr (by omega) rfl rfl
    · rw [appendLabel, byteAt_outside (getElem?_eq_none (by omega)), if_neg (by omega)]
      rfl

/-- The name so far with the label at an offset, and a dot unless a zero byte is behind it. -/
def withLabel (reply : Response) (it behind : Nat) (res : Name) : Name :=
  let label := res ++ (reply.drop (it + 1)).take (behind - (it + 1))
  if reply[behind]? = some 0 then label else label ++ [dot]

theorem readDnsName_succ (reply : Response) (fuel it : Nat) (res : Name) :
    readDnsName reply (fuel + 1) it res =
      match form reply it with
      | .outside => .error .outside
      | .stops => .ok (res, it + 1)
      | .pointer offset =>
        (readDnsName reply fuel offset []).map fun (name, _) => (res ++ name, it + 2)
      | .label behind => readDnsName reply fuel behind (withLabel reply it behind res) := by
  rw [readDnsName, form]
  cases isCode : reply[it]? with
  | none =>
    rw [byteAt_outside isCode]
    rfl
  | some code =>
    rw [byteAt_ok isCode]
    dsimp only
    change (if code &&& 0xc0 = 0xc0 then _ else _) = _
    split_ifs with isPtr isLabel isZero inside
    · cases isLow : reply[it + 1]? with
      | none =>
        rw [byteAt_outside isLow]
        rfl
      | some low =>
        rw [byteAt_ok isLow]
        cases readDnsName reply fuel (pointerOffset code low) [] <;> rfl
    · rfl
    · rw [appendLabel_eq, if_pos (.inr inside.le)]
      rw [byteAt_ok (getElem?_eq_getElem inside)]
      change readDnsName reply fuel (it + 1 + code.toNat) _ = readDnsName _ _ _ _
      rw [withLabel, Nat.add_sub_cancel_left, getElem?_eq_getElem inside, ite_not]
      simp only [Option.some.injEq]
    · rw [appendLabel_eq]
      split_ifs
      · rw [byteAt_outside (getElem?_eq_none (by omega))]
        rfl
      · rfl
    · rfl

end Equations

section Termination

theorem map_eq_error_iff {α β : Type} {f : α → β} {fault : Fault} {outcome : Except Fault α} :
    outcome.map f = .error fault ↔ outcome = .error fault := by
  cases outcome <;> simp [Except.map]

theorem next_finite (reply : Response) : {it | next reply it ≠ none}.Finite := by
  apply (Set.finite_lt_nat reply.length).subset
  intro it goesOn
  by_contra beyond
  have isOutside : reply[it]? = none := getElem?_eq_none (not_lt.mp beyond)
  apply goesOn
  rw [next, form, isOutside]

theorem Ends.readDnsName_ne (ends : Ends (next reply) it) : ∃ enough, ∀ fuel, enough ≤ fuel → ∀ res,
      readDnsName reply fuel it res ≠ .error .outOfFuel := by
  induction ends with
  | intro it _ ih =>
    obtain ⟨enough, later⟩ : ∃ enough, ∀ behind, next reply it = some behind →
        ∀ fuel, enough ≤ fuel → ∀ res, readDnsName reply fuel behind res ≠ .error .outOfFuel := by
      cases isNext : next reply it with
      | none => exact ⟨0, fun _ impossible => by cases impossible⟩
      | some behind =>
        obtain ⟨enough, ends⟩ := ih behind isNext
        exact ⟨enough, fun _ same => by cases same; exact ends⟩
    refine ⟨enough + 1, fun fuel isEnough res => ?_⟩
    obtain ⟨less, rfl⟩ := Nat.exists_eq_add_of_le' ((Nat.le_add_left 1 _).trans isEnough)
    rw [next] at later
    rw [readDnsName_succ]
    cases isForm : form reply it with
    | outside | stops => simp
    | pointer offset =>
      rw [isForm] at later
      exact fun isFault => later offset rfl less (by omega) [] (map_eq_error_iff.mp isFault)
    | label behind =>
      rw [isForm] at later
      exact later behind rfl less (by omega) _

theorem ends_of_readDnsName (ended : readDnsName reply fuel it res ≠ .error .outOfFuel) :
    Ends (next reply) it := by
  induction fuel generalizing it res with
  | zero => exact absurd rfl ended
  | succ fuel ih =>
    rw [readDnsName_succ] at ended
    constructor
    intro second leads
    rw [Leads, next] at leads
    cases isForm : form reply it with
    | outside | stops => simp [isForm] at leads
    | pointer offset =>
      rw [isForm] at ended leads
      cases leads
      exact ih fun isFault => ended (map_eq_error_iff.mpr isFault)
    | label behind =>
      rw [isForm] at ended leads
      cases leads
      exact ih ended

/-- `read_dns_name` terminates, for some amount of fuel, if and only if no offset that it reaches
leads back to itself. -/
theorem readDnsName_terminates_iff (reply : Response) (start : Nat) :
    (∃ fuel, readDnsName reply fuel start [] ≠ .error .outOfFuel) ↔ Acyclic (next reply) start := by
  rw [← ends_iff_acyclic (next_finite reply)]
  constructor
  · rintro ⟨fuel, ended⟩
    exact ends_of_readDnsName ended
  · intro ends
    obtain ⟨enough, terminates⟩ := Ends.readDnsName_ne ends
    exact ⟨enough, terminates enough le_rfl []⟩

def selfPointer : Response := [0, 123, 0x81, 0x80, 0, 1, 0, 0, 0, 0, 0, 0, 0xc0, 12, 0, 1, 0, 1]

/-- A compression pointer to itself. -/
theorem readDnsName_selfPointer :
    ¬∃ fuel, readDnsName selfPointer fuel 12 [] ≠ .error .outOfFuel := by
  push Not
  intro fuel
  induction fuel with
  | zero => rfl
  | succ fuel ih =>
    rw [readDnsName_succ, show form selfPointer 12 = .pointer 12 by decide +kernel]
    simp only [ih, Except.map]

end Termination

end Mlibc.Dns
