import Mlibc.BreadthFirst

/-! # Depth-first visits of a graph -/

namespace Mlibc.DepthFirst

open BreadthFirst List

variable {α : Type*}

/-- A visit of what the root reaches, with its stack, the vertex entered last in front, and
its queue. -/
structure Visit (succs : α → List α) (root : α) (old : α → Prop) (stack queue : List α) : Prop where
  nodup : (stack ++ queue).Nodup
  fresh : ∀ vertex ∈ stack ++ queue, ¬ old vertex
  reached : ∀ vertex ∈ stack ++ queue, Reaches succs root vertex
  closed : ∀ vertex ∈ queue, ∀ next ∈ succs vertex, old next ∨ next ∈ stack ++ queue
  ordered : ∀ first vertex rest, queue = first ++ vertex :: rest →
    ∀ next ∈ succs vertex, old next ∨ next ∈ first ∨ Reaches succs next vertex

variable {succs : α → List α} {root : α} {old : α → Prop} {stack queue : List α} {vertex : α}

theorem Visit.start (succs : α → List α) (root : α) (old : α → Prop) :
    Visit succs root old [] [] where
  nodup := nodup_nil
  fresh := by simp
  reached := by simp
  closed := by simp
  ordered := by simp

theorem Visit.length_le [Fintype α] (visit : Visit succs root old stack queue) :
    stack.length + queue.length ≤ Fintype.card α := by
  have bounded := List.Nodup.length_le_card visit.nodup
  rw [length_append] at bounded
  exact bounded

theorem Visit.enter (visit : Visit succs root old stack queue) (new : ¬ old vertex)
    (reached : Reaches succs root vertex) (unvisited : vertex ∉ stack ++ queue) :
    Visit succs root old (vertex :: stack) queue where
  nodup := nodup_cons.mpr ⟨unvisited, visit.nodup⟩
  fresh := by
    intro other listed
    rcases mem_cons.mp listed with same | before
    · rw [same]
      exact new
    · exact visit.fresh other before
  reached := by
    intro other listed
    rcases mem_cons.mp listed with same | before
    · rw [same]
      exact reached
    · exact visit.reached other before
  closed := by
    intro other left next edge
    rcases visit.closed other left next edge with isOld | listed
    · exact .inl isOld
    · exact .inr (mem_cons_of_mem vertex listed)
  ordered := visit.ordered

theorem Visit.leave (visit : Visit succs root old (vertex :: stack) queue)
    (path : ∀ lower ∈ stack, Reaches succs lower vertex)
    (entered : ∀ next ∈ succs vertex, old next ∨ next ∈ (vertex :: stack) ++ queue) :
    Visit succs root old stack (queue ++ [vertex]) := by
  have members : ∀ other, other ∈ stack ++ (queue ++ [vertex]) ↔
      other ∈ (vertex :: stack) ++ queue := by
    intro other
    simp only [mem_append, mem_cons]
    tauto
  refine ⟨?_, ?_, ?_, ?_, ?_⟩
  · have moved : (stack ++ (queue ++ [vertex])).Perm ((vertex :: stack) ++ queue) := by
      rw [← append_assoc]
      exact perm_append_comm
    exact moved.nodup_iff.mpr visit.nodup
  · intro other listed
    exact visit.fresh other ((members other).mp listed)
  · intro other listed
    exact visit.reached other ((members other).mp listed)
  · intro other left next edge
    rw [members]
    rcases mem_append.mp left with before | this
    · exact visit.closed other before next edge
    · rw [mem_singleton.mp this] at edge
      exact entered next edge
  intro first other rest split next edge
  rcases eq_nil_or_concat rest with rfl | ⟨rest, last, rfl⟩
  · obtain ⟨rfl, same⟩ := append_inj' split rfl
    obtain rfl : vertex = other := singleton_inj.mp same
    rcases entered next edge with isOld | listed
    · exact .inl isOld
    rcases mem_append.mp listed with onStack | inQueue
    · rcases mem_cons.mp onStack with same | below
      · rw [same]
        exact .inr (.inr Relation.ReflTransGen.refl)
      · exact .inr (.inr (path next below))
    · exact .inr (.inl inQueue)
  · rw [concat_eq_append, ← cons_append, ← append_assoc] at split
    obtain ⟨same, _⟩ := append_inj' split rfl
    exact visit.ordered first other rest same next edge

end Mlibc.DepthFirst
