import Mathlib.Data.Fintype.Order
import Mathlib.Data.Set.Finite.Basic
import Mathlib.Logic.Relation

/-! # Orbits of partial functions -/

namespace Mlibc.PartialOrbit

variable {α : Type*} (next : α → Option α)

def Leads (first second : α) : Prop := next first = some second

def Ends (first : α) : Prop := Acc (fun second first => Leads next first second) first

def Acyclic (first : α) : Prop :=
  ∀ reached, Relation.ReflTransGen (Leads next) first reached →
    ¬ Relation.TransGen (Leads next) reached reached

variable {next} {first second : α}

theorem Ends.reached (ends : Ends next first)
    (reaches : Relation.ReflTransGen (Leads next) first second) : Ends next second := by
  induction reaches with
  | refl => exact ends
  | tail _ leads ends => exact ends.inv leads

theorem Ends.not_cycle (ends : Ends next first) : ¬ Relation.TransGen (Leads next) first first := by
  induction ends with
  | intro first _ ih =>
    intro cycle
    obtain ⟨second, leads, returns⟩ := Relation.TransGen.head'_iff.mp cycle
    exact ih second leads (.tail' returns leads)

theorem Ends.acyclic (ends : Ends next first) : Acyclic next first :=
  fun _ reaches => (ends.reached reaches).not_cycle

theorem ends_of_none (stops : next first = none) : Ends next first := by
  constructor
  intro second leads
  rw [Leads, stops] at leads
  cases leads

theorem Acyclic.ends (acyclic : Acyclic next first) (finite : {a | next a ≠ none}.Finite) :
    Ends next first := by
  let Reached := {a : α // Relation.ReflTransGen (Leads next) first a ∧ next a ≠ none}
  have isFinite : Finite Reached := Set.Finite.subset finite fun _ reached => reached.2
  let follows : Reached → Reached → Prop := fun later old =>
    Relation.TransGen (Leads next) old.1 later.1
  have irreflexive : Std.Irrefl follows := ⟨fun reached => acyclic reached.1 reached.2.1⟩
  have wellFounded : WellFounded follows := Finite.wellFounded_of_trans_of_irrefl follows
  have endsAll : ∀ reached : Reached, Ends next reached.1 := by
    intro reached
    induction reached using wellFounded.induction with
    | _ reached ih =>
      constructor
      intro second leads
      by_cases stops : next second = none
      · exact ends_of_none stops
      · exact ih ⟨second, reached.2.1.tail leads, stops⟩ (.single leads)
  by_cases stops : next first = none
  · exact ends_of_none stops
  · exact endsAll ⟨first, .refl, stops⟩

theorem ends_iff_acyclic (finite : {a | next a ≠ none}.Finite) :
    Ends next first ↔ Acyclic next first :=
  ⟨Ends.acyclic, fun acyclic => acyclic.ends finite⟩

end Mlibc.PartialOrbit
