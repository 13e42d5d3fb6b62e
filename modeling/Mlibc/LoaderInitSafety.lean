import Mlibc.LoaderInit

/-! # Initializing and destructing objects in the right order -/

namespace Mlibc.Loader

open BreadthFirst DepthFirst List State

variable {α : Type} [DecidableEq α]

/-- Exactly the scheduled objects ran, each once, and the destruct queue has them in the reverse
order. -/
structure State.Consistent (s : State α) : Prop where
  closed : ∀ obj, s.Scheduled obj → ∀ dep ∈ s.dependencies obj, s.Scheduled dep
  offStack : ∀ obj, (s.objects obj).onInitStack = false
  ran : ∀ obj, (s.objects obj).wasInitialized = true ↔ obj ∈ s.initialized
  scheduled : ∀ obj ∈ s.initialized, s.Scheduled obj
  complete : ∀ obj, s.Scheduled obj → (s.objects obj).skipInit = true ∨ obj ∈ s.initialized
  once : s.initialized.Nodup
  queued : ∀ obj ∈ s.destructQueue, s.Scheduled obj
  reversed : s.destructQueue.filter (fun obj => (s.objects obj).wasInitialized) =
    s.initialized.reverse
  undestroyed : ∀ obj, (s.objects obj).wasDestroyed = false
  undestructed : s.destructed = []

/-- What the callers and the format of the objects promise. -/
structure Loadable (ld : Loader α) (linkBfs : List α) (s : State α) : Prop where
  linked : ∀ obj ∈ linkBfs, (s.objects obj).wasLinked = true
  initArray : ∀ obj, (s.objects obj).initArraySize % initFuncPtrSize = 0
  finiArray : ∀ obj, (s.objects obj).finiArraySize % initFuncPtrSize = 0
  preInitArray : ∀ main ∈ ld.mainExecutable,
    ∀ size ∈ (s.objects main).preInitArraySize, (s.objects main).isMainObject = true ∧
      (s.objects main).wasInitialized = false ∧ size % initFuncPtrSize = 0

variable {s : State α} {root : α} {queue : List α} {ld : Loader α} {linkBfs : List α}

omit [DecidableEq α] in
theorem ends_runPreInitArray (loadable : Loadable ld linkBfs s) :
    Ends (runPreInitArray ld.mainExecutable) s
      (fun _ after => ∃ log, after = { s with preInitialized := log }) Never := by
  have unchanged : ∃ log, s = { s with preInitialized := log } :=
    ⟨s.preInitialized, rfl⟩
  cases present : ld.mainExecutable with
  | none => exact unchanged
  | some main =>
    rw [runPreInitArray, ends_bind, ends_getObject]
    cases sized : (s.objects main).preInitArraySize with
    | none => exact unchanged
    | some size =>
      obtain ⟨isMain, uninitialized, whole⟩ := loadable.preInitArray main present size sized
      dsimp only
      rw [ends_bind, ends_ensure isMain, ends_bind,
        ends_ensure (by rw [uninitialized]; decide), ends_bind, ends_ensure whole, ends_modify]
      exact ⟨_, rfl⟩

def State.loaded (s : State α) (queue log : List α) : State α :=
  { (s.visiting [] queue).initializing queue with preInitialized := log }

omit [DecidableEq α] in
theorem State.Consistent.uninitialized (consistent : s.Consistent) {obj : α}
    (fresh : ¬ s.Scheduled obj) : (s.objects obj).wasInitialized = false := by
  apply Bool.eq_false_of_not_eq_true
  intro ran
  exact fresh (consistent.scheduled obj ((consistent.ran obj).mp ran))

theorem ends_initObjects [Fintype α]
    (reaches : ∀ obj, obj ∈ linkBfs ↔ Reaches s.dependencies root obj)
    (consistent : s.Consistent) (loadable : Loadable ld linkBfs s) :
    Ends (initObjects ld linkBfs) s (fun _ after => ∃ queue log, after = s.loaded queue log ∧
        Visit s.dependencies root s.Scheduled [] queue ∧
        ∀ obj ∈ linkBfs, s.Scheduled obj ∨ obj ∈ queue) Never := by
  rw [initObjects, ends_bind]
  refine (ends_runPreInitArray loadable).imp ?_
  rintro _ _ ⟨log, rfl⟩
  rw [ends_bind]
  refine (ends_scheduleAll { s with preInitialized := log } consistent.offStack root linkBfs
    (fun obj => (reaches obj).mp)).imp ?_
  rintro queue _ ⟨rfl, visit, scheduled⟩
  have startable : ∀ obj ∈ queue,
      ((({ s with preInitialized := log } : State α).visiting [] queue).objects obj).Startable := by
    intro obj listed
    refine ⟨?_, consistent.uninitialized (visit.fresh obj listed), loadable.initArray obj⟩
    exact loadable.linked obj ((reaches obj).mpr (visit.reached obj listed))
  refine (ends_initQueue _ visit.nodup startable).imp ?_
  rintro _ _ rfl
  exact ⟨queue, log, rfl, visit, scheduled⟩

variable (log : List α)

theorem State.scheduled_loaded (obj : α) :
    (s.loaded queue log).Scheduled obj ↔ s.Scheduled obj ∨ obj ∈ queue :=
  s.scheduled_visiting [] queue obj

theorem State.initialized_loaded : (s.loaded queue log).initialized = s.initialized ++
      queue.filter fun obj => !(s.objects obj).skipInit :=
  rfl

theorem State.wasInitialized_loaded (obj : α) : ((s.loaded queue log).objects obj).wasInitialized =
      ((s.objects obj).wasInitialized || (obj ∈ queue && !(s.objects obj).skipInit)) :=
  rfl

theorem State.Consistent.reversed_loaded (consistent : s.Consistent)
    (fresh : ∀ obj ∈ queue, ¬ s.Scheduled obj) :
    (s.loaded queue log).destructQueue.filter
        (fun obj => ((s.loaded queue log).objects obj).wasInitialized) =
      (s.loaded queue log).initialized.reverse := by
  have older : s.destructQueue.filter
      (fun obj => ((s.loaded queue log).objects obj).wasInitialized) = s.initialized.reverse := by
    rw [← consistent.reversed]
    apply filter_congr
    intro obj queued
    have notNew : obj ∉ queue := fun listed =>
      fresh obj listed (consistent.queued obj queued)
    simp [wasInitialized_loaded, notNew]
  have newer : queue.filter (fun obj => ((s.loaded queue log).objects obj).wasInitialized) =
        queue.filter fun obj => !(s.objects obj).skipInit := by
    apply filter_congr
    intro obj listed
    simp [wasInitialized_loaded, listed, consistent.uninitialized (fresh obj listed)]
  change (queue.reverse ++ s.destructQueue).filter _ = _
  rw [filter_append, older, filter_reverse, newer, initialized_loaded, reverse_append]

theorem State.Consistent.loaded (consistent : s.Consistent)
    (visit : Visit s.dependencies root s.Scheduled [] queue) :
    (s.loaded queue log).Consistent where
  closed := by
    intro obj scheduled dep edge
    rw [scheduled_loaded] at scheduled ⊢
    rcases scheduled with old | listed
    · exact .inl (consistent.closed obj old dep edge)
    · exact visit.closed obj listed dep edge
  offStack := fun _ => rfl
  ran := by
    intro obj
    rw [wasInitialized_loaded, initialized_loaded, Bool.or_eq_true,
      consistent.ran, mem_append, mem_filter, Bool.and_eq_true, decide_eq_true_eq]
  scheduled := by
    intro obj ran
    rw [scheduled_loaded]
    rw [initialized_loaded, mem_append, mem_filter] at ran
    rcases ran with earlier | ⟨listed, _⟩
    · exact .inl (consistent.scheduled obj earlier)
    · exact .inr listed
  complete := by
    intro obj scheduled
    rw [scheduled_loaded] at scheduled
    rw [initialized_loaded, mem_append, mem_filter]
    change (s.objects obj).skipInit = true ∨ _
    rcases scheduled with old | listed
    · exact (consistent.complete obj old).imp_right .inl
    · cases skips : (s.objects obj).skipInit with
      | true => exact .inl rfl
      | false => exact .inr (.inr ⟨listed, rfl⟩)
  once := by
    refine nodup_append.mpr ⟨consistent.once, visit.nodup.filter _, ?_⟩
    intro old ran new listed same
    subst same
    exact visit.fresh old (mem_of_mem_filter listed) (consistent.scheduled old ran)
  queued := by
    intro obj queued
    rw [scheduled_loaded]
    rcases mem_append.mp queued with listed | earlier
    · exact .inr (mem_reverse.mp listed)
    · exact .inl (consistent.queued obj earlier)
  reversed := consistent.reversed_loaded log visit.fresh
  undestroyed := consistent.undestroyed
  undestructed := consistent.undestructed

def State.destructing (s : State α) (top : α) (rest : List α) : State α :=
  { ({ s with destructQueue := rest } : State α).update top
      (fun shared => { shared with wasDestroyed := true }) with
    destructed := s.destructed ++ [top] }

theorem State.objects_destructing (s : State α) (top : α) (rest : List α) (obj : α) :
    (s.destructing top rest).objects obj = { s.objects obj with
      wasDestroyed := obj = top || (s.objects obj).wasDestroyed } := by
  by_cases this : obj = top
  · subst this
    simp [destructing, update]
  · simp [destructing, update, this]

theorem ends_destructLoop (finiArray : ∀ obj, (s.objects obj).finiArraySize % initFuncPtrSize = 0)
    (undestroyed : ∀ obj ∈ queue, (s.objects obj).wasDestroyed = false)
    (distinct : (queue.filter fun obj => (s.objects obj).wasInitialized).Nodup) :
    Ends (destructLoop queue) s (fun _ after => after.destructed = s.destructed ++
        queue.filter fun obj => (s.objects obj).wasInitialized) Never := by
  induction queue generalizing s with
  | nil => simp [destructLoop]
  | cons top rest ih =>
    have live := undestroyed top (mem_cons_self ..)
    rw [destructLoop, ends_bind, ends_modify, ends_bind, doDestruct, ends_bind, ends_getObject,
      ends_ite]
    constructor
    · rintro ⟨ran, _⟩
      rw [filter_cons, if_pos ran] at distinct ⊢
      have once : top ∉ rest := fun again =>
        (nodup_cons.mp distinct).1 (mem_filter.mpr ⟨again, ran⟩)
      rw [ends_bind, ends_modifyObject, ends_bind, ends_ensure (finiArray top)]
      change Ends (destructLoop rest) (s.destructing top rest) _ _
      have same : rest.filter (fun obj => ((s.destructing top rest).objects obj).wasInitialized) =
            rest.filter fun obj => (s.objects obj).wasInitialized := by
        simp only [objects_destructing]
      refine (ih ?_ ?_ ?_).imp ?_
      · intro obj
        rw [objects_destructing]
        exact finiArray obj
      · intro obj listed
        have other : obj ≠ top := by
          intro this
          rw [this] at listed
          exact once listed
        simp [objects_destructing, other, undestroyed obj (mem_cons_of_mem top listed)]
      · rw [same]
        exact (nodup_cons.mp distinct).2
      · intro _ after destructed
        rw [destructed, same]
        exact append_assoc ..
    · intro skipped
      have idle : ¬ (s.objects top).wasInitialized = true := by
        intro ran
        apply skipped
        refine ⟨ran, ?_⟩
        rw [live]
        decide
      rw [filter_cons, if_neg idle] at distinct ⊢
      exact ih finiArray (fun obj listed => undestroyed obj (mem_cons_of_mem top listed)) distinct

theorem State.Consistent.ends_destructObjects (consistent : s.Consistent)
    (finiArray : ∀ obj, (s.objects obj).finiArraySize % initFuncPtrSize = 0) :
    ∃ final, destructObjects s = .ok () final ∧ final.destructed = s.initialized.reverse := by
  have ends : Ends destructObjects s
      (fun _ after => after.destructed = s.initialized.reverse) Never := by
    refine (ends_destructLoop finiArray (fun obj _ => consistent.undestroyed obj) ?_).imp ?_
    · rw [consistent.reversed]
      exact nodup_reverse.mpr consistent.once
    · intro _ after destructed
      rw [destructed, consistent.undestructed, consistent.reversed, nil_append]
  obtain ⟨_, final, ran, destructed⟩ := ends.run
  exact ⟨final, ran, destructed⟩

theorem State.Consistent.ordered_loaded (consistent : s.Consistent)
    (visit : Visit s.dependencies root s.Scheduled [] queue)
    {first rest : List α} {obj dep : α}
    (split : (s.loaded queue log).initialized = first ++ obj :: rest)
    (new : ¬ s.Scheduled obj) (edge : dep ∈ s.dependencies obj)
    (oneWay : ¬ Reaches s.dependencies dep obj) :
    (s.objects dep).skipInit = true ∨ dep ∈ first := by
  have notOld : obj ∉ s.initialized := fun ran => new (consistent.scheduled obj ran)
  rw [initialized_loaded] at split
  obtain ⟨newer, rfl, listed⟩ : ∃ newer, first = s.initialized ++ newer ∧
      queue.filter (fun obj => !(s.objects obj).skipInit) = newer ++ obj :: rest := by
    rcases append_eq_append_iff.mp split with ⟨newer, before, after⟩ | ⟨older, before, after⟩
    · exact ⟨newer, before, after⟩
    cases older with
    | nil =>
      rw [append_nil] at before
      refine ⟨[], by rw [before, append_nil], ?_⟩
      rw [before] at split
      exact append_cancel_left split
    | cons head tail =>
      obtain ⟨rfl, _⟩ := cons_eq_cons.mp after
      exact absurd (by rw [before]; simp) notOld
  obtain ⟨visited, following, rfl, before, after⟩ := filter_eq_append_iff.mp listed
  obtain ⟨skipped, later, rfl, skips, _, _⟩ := filter_eq_cons_iff.mp after
  rcases visit.ordered (visited ++ skipped) obj later (by rw [append_assoc]) dep edge with
    old | earlier | back
  · exact (consistent.complete dep old).imp_right (mem_append_left _)
  · cases runs : (s.objects dep).skipInit with
    | true => exact .inl rfl
    | false =>
      right
      apply mem_append_right
      rw [← before]
      rcases mem_append.mp earlier with listed | hidden
      · exact mem_filter.mpr ⟨listed, by rw [runs]; rfl⟩
      · exact absurd (by rw [runs]; rfl) (skips dep hidden)
  · exact absurd back oneWay

omit [DecidableEq α] in
theorem SharedObject.eq_of_initialized {shared : SharedObject α}
    (scheduled : shared.scheduledForInit = true) (offStack : shared.onInitStack = false)
    (initialized : shared.wasInitialized = true) :
    { shared with scheduledForInit := true, onInitStack := false, wasInitialized := true } =
      shared := by
  cases shared
  cases scheduled
  cases offStack
  cases initialized
  rfl

/-- The functions of the objects that the root reaches and that were not scheduled run exactly once,
after those of their direct dependencies that do not lead back (over a cycle an indirect one may run
later), and the termination functions in the reverse order. -/
theorem initObjects_once [Fintype α] (ld : Loader α) (root : α) (linkBfs : List α) (s : State α)
    (reaches : ∀ obj, obj ∈ linkBfs ↔ Reaches s.dependencies root obj)
    (consistent : s.Consistent) (loadable : Loadable ld linkBfs s) :
    ∃ after new, initObjects ld linkBfs s = .ok () after ∧ after.Consistent ∧
      after.initialized = s.initialized ++ new ∧ new.Nodup ∧
      (∀ obj, obj ∈ new ↔ Reaches s.dependencies root obj ∧
        ¬ s.Scheduled obj ∧ (s.objects obj).skipInit = false) ∧
      (∀ obj, (s.objects obj).wasInitialized → after.objects obj = s.objects obj) ∧
      (∀ first obj rest, after.initialized = first ++ obj :: rest → obj ∈ new →
        ∀ dep ∈ s.dependencies obj, ¬ Reaches s.dependencies dep obj →
          (s.objects dep).skipInit = true ∨ dep ∈ first) ∧
      ∃ final, destructObjects after = .ok () final ∧
        final.destructed = after.initialized.reverse := by
  obtain ⟨_, after, ran, queue, log, rfl, visit, scheduled⟩ :=
    (ends_initObjects reaches consistent loadable).run
  have new_iff : ∀ obj, obj ∈ queue.filter (fun obj => !(s.objects obj).skipInit) ↔
      Reaches s.dependencies root obj ∧ ¬ s.Scheduled obj ∧ (s.objects obj).skipInit = false := by
    intro obj
    rw [mem_filter, Bool.not_eq_true']
    constructor
    · rintro ⟨listed, runs⟩
      exact ⟨visit.reached obj listed, visit.fresh obj listed, runs⟩
    · rintro ⟨reached, unscheduled, runs⟩
      refine ⟨?_, runs⟩
      exact (scheduled obj ((reaches obj).mpr reached)).resolve_left unscheduled
  have kept := consistent.loaded log visit
  refine ⟨s.loaded queue log, _, ran, kept, initialized_loaded log,
    visit.nodup.filter _, new_iff, ?_, ?_, kept.ends_destructObjects loadable.finiArray⟩
  · intro obj initialized
    have old : (s.objects obj).scheduledForInit = true :=
      consistent.scheduled obj ((consistent.ran obj).mp initialized)
    rw [← SharedObject.eq_of_initialized old (consistent.offStack obj) initialized]
    simp only [loaded, initializing, visiting, old, initialized, Bool.true_or,
      not_mem_nil, decide_false]
  · intro first obj rest split new dep edge oneWay
    exact consistent.ordered_loaded log visit split ((new_iff obj).mp new).2.1 edge oneWay

omit [DecidableEq α] in
theorem State.Consistent.start (unscheduled : ∀ obj, (s.objects obj).scheduledForInit = false)
    (offStack : ∀ obj, (s.objects obj).onInitStack = false)
    (uninitialized : ∀ obj, (s.objects obj).wasInitialized = false)
    (undestroyed : ∀ obj, (s.objects obj).wasDestroyed = false)
    (queue : s.destructQueue = []) (initialized : s.initialized = [])
    (destructed : s.destructed = []) : s.Consistent where
  closed := by simp [State.Scheduled, unscheduled]
  offStack := offStack
  ran := by simp [uninitialized, initialized]
  scheduled := by simp [initialized]
  complete := by simp [State.Scheduled, unscheduled]
  once := by simp [initialized]
  queued := by simp [queue]
  reversed := by simp [queue, initialized]
  undestroyed := undestroyed
  undestructed := destructed

def cyclicDependency : Fin 3 → List (Fin 3)
  | 0 => [1, 2]
  | 1 => [0]
  | 2 => []

def linkedLibraries (dependencies : α → List α) : State α where
  objects obj :=
    { dependencies := dependencies obj, isMainObject := false, objectRts := 2, dynamic := true
      wasLinked := true }
  scopes _ := { isGlobal := false }

theorem initObjects_once_cyclicDependency :
    ∃ after, initObjects libraryLoader [0, 1, 2, 0] (linkedLibraries cyclicDependency) =
        .ok () after ∧ after.initialized = [1, 2, 0] ∧
      ∃ final, destructObjects after = .ok () final ∧ final.destructed = [0, 2, 1] := by
  have reaches : ∀ obj, obj ∈ [0, 1, 2, 0] ↔
      Reaches (linkedLibraries cyclicDependency).dependencies 0 obj := by
    have first : Edge (linkedLibraries cyclicDependency).dependencies 0 1 := by decide
    have second : Edge (linkedLibraries cyclicDependency).dependencies 0 2 := by decide
    have all : ∀ obj : Fin 3, obj ∈ [0, 1, 2, 0] := by decide
    intro obj
    constructor
    · intro _
      match obj with
      | 0 => exact Relation.ReflTransGen.refl
      | 1 => exact Relation.ReflTransGen.single first
      | 2 => exact Relation.ReflTransGen.single second
    · intro _
      exact all obj
  have consistent : (linkedLibraries cyclicDependency).Consistent := by
    apply State.Consistent.start <;> intros <;> rfl
  have loadable : Loadable libraryLoader [0, 1, 2, 0] (linkedLibraries cyclicDependency) := by
    constructor
    · intro obj _
      rfl
    · intro obj
      rfl
    · intro obj
      rfl
    · intro main present
      cases present
  obtain ⟨after, _, ran, _, _, _, _, _, _, final, destructs, reversed⟩ :=
    initObjects_once libraryLoader 0 [0, 1, 2, 0] (linkedLibraries cyclicDependency) reaches
      consistent loadable
  have log : after.initialized = [1, 2, 0] := by
    cases ran
    rfl
  refine ⟨after, ran, log, final, destructs, ?_⟩
  rw [reversed, log]
  rfl

end Mlibc.Loader
