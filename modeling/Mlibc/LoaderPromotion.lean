import Mlibc.LoaderLink

/-! # The scopes after a link -/

namespace Mlibc.Loader

open BreadthFirst Function

variable {α : Type}

def SharedObject.place (so : SharedObject α) : List α × Nat × Bool :=
  (so.dependencies, so.globalRts, so.isMainObject)

abbrev SamePlaces : State α → State α → Prop := SameAs SharedObject.place State.scopes

variable [DecidableEq α]

/-- The listed objects are in the scope of the load, and are global if it is. -/
structure Promoted (ld : Loader α) (linkBfs : List α) (before after : State α) : Prop where
  dependencies : after.dependencies = before.dependencies
  isMainObject : ∀ obj,
    (after.objects obj).isMainObject = (before.objects obj).isMainObject
  isGlobal : ∀ scope, (after.scopes scope).isGlobal = (before.scopes scope).isGlobal
  other : ∀ scope ≠ ld.loadScope, after.scopes scope = before.scopes scope
  members : ∀ obj, obj ∈ (after.scopes ld.loadScope).objects ↔
    obj ∈ (before.scopes ld.loadScope).objects ∨ obj ∈ linkBfs
  globalRts : ∀ obj, (after.objects obj).globalRts =
    if (before.scopes ld.loadScope).isGlobal ∧ obj ∈ linkBfs ∧
        (before.objects obj).globalRts = 0 then ld.linkRts
    else (before.objects obj).globalRts

theorem Promoted.refl (ld : Loader α) (s : State α) : Promoted ld [] s s where
  dependencies := rfl
  isMainObject _ := rfl
  isGlobal _ := rfl
  other _ _ := rfl
  members obj := by simp
  globalRts obj := by simp

theorem mem_appendObject (scope : Scope α) (obj other : α) :
    other ∈ (scope.appendObject obj).objects ↔ other ∈ scope.objects ∨ other = obj := by
  unfold Scope.appendObject
  split_ifs with old
  · constructor
    · exact .inl
    · rintro (listed | rfl)
      · exact listed
      · exact old
  · simp

theorem isGlobal_appendObject (scope : Scope α) (obj : α) :
    (scope.appendObject obj).isGlobal = scope.isGlobal := by
  unfold Scope.appendObject
  split_ifs
  · rfl
  · rfl

section Step

variable {ld : Loader α} {passed : List α} {before s : State α}

theorem Promoted.step (promoted : Promoted ld passed before s) (obj : α) {next : State α}
    (scopes : next.scopes = update s.scopes ld.loadScope
      ((s.scopes ld.loadScope).appendObject obj))
    (dependencies : ∀ other, (next.objects other).dependencies = (s.objects other).dependencies)
    (isMainObject : ∀ other, (next.objects other).isMainObject = (s.objects other).isMainObject)
    (globalRts : ∀ other, (next.objects other).globalRts =
      if (s.scopes ld.loadScope).isGlobal ∧ other = obj ∧
          (s.objects other).globalRts = 0 then ld.linkRts
      else (s.objects other).globalRts) :
    Promoted ld (passed ++ [obj]) before next where
  dependencies := by
    rw [← promoted.dependencies]
    exact funext dependencies
  isMainObject other := (isMainObject other).trans (promoted.isMainObject other)
  isGlobal scope := by
    rw [scopes, ← promoted.isGlobal scope]
    by_cases same : scope = ld.loadScope
    · subst same
      rw [update_self, isGlobal_appendObject]
    · rw [update_of_ne same]
  other scope apart := by
    rw [scopes, update_of_ne apart]
    exact promoted.other scope apart
  members other := by
    rw [scopes, update_self, mem_appendObject, promoted.members, List.mem_append,
      List.mem_singleton, or_assoc]
  globalRts other := by
    rw [globalRts, promoted.globalRts, promoted.isGlobal]
    simp only [List.mem_append, List.mem_singleton]
    split_ifs <;> tauto

theorem Promoted.promoteObject (promoted : Promoted ld passed before s) (obj : α) :
    Ends (promoteObject ld obj) s
      (fun _ after => Promoted ld (passed ++ [obj]) before after) Never := by
  simp only [Loader.promoteObject, ends_bind, ends_ite]
  constructor
  · rintro ⟨isLocal, isGlobal⟩
    have kept : SameAs (fun so => (so.dependencies, so.isMainObject)) State.scopes s
        (s.update obj fun so => { so with globalRts := ld.linkRts }) :=
      (SameAs.refl _ _ s).updateObject obj _ rfl rfl
    apply promoted.step obj rfl
    · exact fun other => congrArg Prod.fst (kept.2 other)
    · exact fun other => congrArg Prod.snd (kept.2 other)
    intro other
    by_cases same : other = obj
    · subst same
      rw [if_pos ⟨isGlobal, rfl, isLocal⟩, State.update_self]
    · rw [if_neg (fun both => same both.2.1), State.update_of_ne same]
  · intro kept
    apply promoted.step obj rfl
    · exact fun _ => rfl
    · exact fun _ => rfl
    intro other
    rw [if_neg]
    rintro ⟨isGlobal, rfl, isLocal⟩
    exact kept ⟨isLocal, isGlobal⟩

end Step

theorem ends_promoteObjects (ld : Loader α) (linkBfs : List α) (s : State α) :
    Ends (linkBfs.forM (promoteObject ld)) s
      (fun _ after => Promoted ld linkBfs s after) Never := by
  apply ends_forM (fun passed after => Promoted ld passed s after) linkBfs
  · intro passed obj _ after _ promoted
    exact promoted.promoteObject obj
  · exact Promoted.refl ld s
  · exact fun after promoted => promoted

theorem Promoted.congr {ld : Loader α} {linkBfs : List α} {before s after : State α}
    (promoted : Promoted ld linkBfs before s) (same : SamePlaces s after) :
    Promoted ld linkBfs before after := by
  have places (obj : α) := same.2 obj
  simp only [SharedObject.place, Prod.mk.injEq] at places
  have scopes : after.scopes = s.scopes := same.1
  exact
    { dependencies := by
        rw [← promoted.dependencies]
        exact funext fun obj => (places obj).1
      isMainObject := fun obj => (places obj).2.2.trans (promoted.isMainObject obj)
      isGlobal := by
        rw [scopes]
        exact promoted.isGlobal
      other := by
        rw [scopes]
        exact promoted.other
      members := by
        rw [scopes]
        exact promoted.members
      globalRts := fun obj => (places obj).2.1.trans (promoted.globalRts obj) }

theorem Promoted.of_same {ld : Loader α} {linkBfs : List α} {before s after : State α}
    (same : SamePlaces before s) (promoted : Promoted ld linkBfs s after) :
    Promoted ld linkBfs before after := by
  have places (obj : α) := same.2 obj
  simp only [SharedObject.place, Prod.mk.injEq] at places
  have scopes : s.scopes = before.scopes := same.1
  obtain ⟨dependencies, isMainObject, isGlobal, other, members, globalRts⟩ := promoted
  rw [scopes] at isGlobal other members globalRts
  simp only [places] at isMainObject globalRts
  exact ⟨dependencies.trans (funext fun obj => (places obj).1), isMainObject, isGlobal,
    other, members, globalRts⟩

theorem linkObjects_promotes [Fintype α] (ld : Loader α) (above : Bool) (root : α)
    (s : State α) :
    Ends (linkObjects ld above root) s
      (fun linkBfs after => (∀ obj, obj ∈ linkBfs ↔ Reaches s.dependencies root obj) ∧
        Promoted ld linkBfs s after) (fun _ _ => True) := by
  rw [linkObjects, ends_bind]
  apply (ends_buildLinkBfs_or ld s root).imp_any
  rintro _ _ ⟨⟨order, rfl, scan⟩, align, rfl⟩
  have kept : SamePlaces s { s with tlsMaxAlignment := align } := ⟨rfl, fun _ => rfl⟩
  rw [ends_bind]
  apply (buildTlsMaps_same (fun _ _ _ _ => rfl) (fun _ _ _ => rfl) ld above
    (order.map Prod.fst) kept).imp_any
  intro _ mapped sameMapped
  rw [ends_bind]
  apply (ends_promoteObjects ld (order.map Prod.fst) mapped).of_never.imp
  intro _ promotedState promoted
  rw [ends_bind]
  apply ends_forM (fun _ after => SamePlaces promotedState after)
  · intro _ obj _ after _ same
    exact relocateObject_same (fun _ _ => rfl) ld obj same
  · exact SameAs.refl _ _ promotedState
  intro relocated sameRelocated
  rw [ends_bind]
  apply ends_forM (fun _ after => SamePlaces promotedState after)
  · intro _ obj _ after _ same
    exact same.update obj _ rfl rfl rfl
  · exact sameRelocated
  intro linked sameLinked
  exact ⟨scan.mem_iff le_rfl, (promoted.congr sameLinked).of_same sameMapped⟩

/-! ### Initialization -/

section Initialization

variable {before s : State α}

theorem scheduleInit_same (fuel : Nat) (obj : α) (initQueue : List α)
    (same : SamePlaces before s) :
    Ends (scheduleInit fuel obj initQueue) s (fun _ after => SamePlaces before after)
      (fun _ _ => True) := by
  induction fuel generalizing obj initQueue s with
  | zero => trivial
  | succ fuel ih =>
    simp only [scheduleInit, ends_bind, ensure, ends_require, implies_true, and_true]
    intro _ _
    apply ends_foldlM (fun _ _ after => SamePlaces before after)
    · intro _ dep _ queue after _ same
      simp only [ends_bind, ends_ite]
      exact ⟨fun _ => same, fun _ => ih dep queue same⟩
    · exact (same.updateObject obj _ rfl rfl).updateObject obj _ rfl rfl
    · intro _ after same
      exact same.update obj _ rfl rfl rfl

theorem initObject_same (obj : α) (same : SamePlaces before s) :
    Ends (initObject obj) s (fun _ after => SamePlaces before after) (fun _ _ => True) := by
  have queued {current : State α} (same : SamePlaces before current) :
      Ends (addObjectToDestructQueue obj) current (fun _ after => SamePlaces before after)
        (fun _ _ => True) := same
  simp only [initObject, ends_bind, ends_ite]
  refine ⟨fun _ => ⟨fun _ => ?_, fun _ => queued same⟩, fun _ => same⟩
  simp only [doInitialize, ends_bind, ensure, ends_require, implies_true, and_true]
  intro _ _ _
  exact queued (same.update obj _ rfl rfl rfl)

theorem initObjects_same [Fintype α] (ld : Loader α) (linkBfs : List α)
    (same : SamePlaces before s) :
    Ends (initObjects ld linkBfs) s (fun _ after => SamePlaces before after)
      (fun _ _ => True) := by
  have preInit : Ends (runPreInitArray ld.mainExecutable) s
      (fun _ after => SamePlaces before after) (fun _ _ => True) := by
    cases ld.mainExecutable with
    | none => exact same
    | some main =>
      simp only [runPreInitArray, ends_bind, ends_getObject]
      cases (s.objects main).preInitArraySize with
      | none => exact same
      | some size =>
        simp only [ends_bind, ensure, ends_require, implies_true, and_true]
        exact fun _ _ _ => same
  rw [initObjects, ends_bind]
  apply preInit.imp
  intro _ started same
  rw [ends_bind]
  apply ends_foldlM (fun _ _ after => SamePlaces before after)
  · intro _ obj _ queue after _ same
    simp only [ends_bind, ends_ite]
    exact ⟨fun _ => same, fun _ => scheduleInit_same _ obj queue same⟩
  · exact same
  intro queue scheduled same
  apply ends_forM (fun _ after => SamePlaces before after)
  · intro _ obj _ after _ same
    exact initObject_same obj same
  · exact same
  · exact fun _ same => same

end Initialization

end Mlibc.Loader
