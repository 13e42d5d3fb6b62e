import Mlibc.DepthFirst
import Mlibc.LoaderLink

/-!
# Initializing the objects of a load

`scheduleInit` is a depth-first visit whose stack is kept in the flags of the objects.
-/

namespace Mlibc.Loader

open BreadthFirst DepthFirst List State

variable {α : Type} [DecidableEq α]

def State.Scheduled (s : State α) (obj : α) : Prop :=
  (s.objects obj).scheduledForInit = true

/-- The state inside of a visit of the objects: those on the stack and in the queue are
scheduled. -/
def State.visiting (s : State α) (stack queue : List α) : State α :=
  { s with objects := fun obj =>
      { s.objects obj with
        scheduledForInit := (s.objects obj).scheduledForInit || obj ∈ stack ++ queue
        onInitStack := obj ∈ stack } }

theorem State.visiting_start {s : State α} (offStack : ∀ obj, (s.objects obj).onInitStack = false) :
    s.visiting [] [] = s := by
  symm
  refine congrArg (fun objects => { s with objects }) (funext fun obj => ?_)
  simp only [append_nil, not_mem_nil, decide_false, Bool.or_false]
  rw [← offStack obj]

theorem State.visiting_enter (s : State α) (stack queue : List α) (obj : α) :
    ((s.visiting stack queue).update obj fun so => { so with onInitStack := true }).update obj
          (fun so => { so with scheduledForInit := true }) =
      s.visiting (obj :: stack) queue := by
  simp only [update, visiting]
  congr 1
  funext other
  by_cases this : other = obj
  · subst this
    simp
  · simp [this]

variable {obj : α}

theorem State.visiting_leave (s : State α) {stack : List α} (queue : List α) (off : obj ∉ stack) :
    (s.visiting (obj :: stack) queue).update obj (fun so => { so with onInitStack := false }) =
      s.visiting stack (queue ++ [obj]) := by
  simp only [update, visiting]
  congr 1
  funext other
  by_cases this : other = obj
  · subst this
    simp [off]
  · simp [this]

theorem State.scheduled_visiting (s : State α) (stack queue : List α) (obj : α) :
    ((s.visiting stack queue).objects obj).scheduledForInit ↔
      s.Scheduled obj ∨ obj ∈ stack ++ queue := by
  simp only [visiting, State.Scheduled, Bool.or_eq_true, decide_eq_true_eq]

def Continues (before : State α) (root : α) (stack queue queue' : List α)
    (after : State α) : Prop :=
  after = before.visiting stack queue' ∧
    Visit before.dependencies root before.Scheduled stack queue' ∧ queue <+: queue'

theorem ends_scheduleNext {before : State α} {root : α} {stack queue : List α}
    {schedule : LoaderM α (List α)}
    (visit : Visit before.dependencies root before.Scheduled stack queue)
    (schedules : ¬ before.Scheduled obj → obj ∉ stack ++ queue →
      Ends schedule (before.visiting stack queue)
        (fun queue' after => Continues before root stack queue queue' after ∧ obj ∈ queue')
        Never) :
    Ends (do
        let so ← getObject obj
        if so.scheduledForInit then return queue else schedule) (before.visiting stack queue)
      (fun queue' after => Continues before root stack queue queue' after ∧
        (before.Scheduled obj ∨ obj ∈ stack ++ queue')) Never := by
  rw [ends_bind, ends_getObject, ends_ite, before.scheduled_visiting]
  constructor
  · intro scheduled
    exact ⟨⟨rfl, visit, prefix_refl queue⟩, scheduled⟩
  intro unscheduled
  refine (schedules (fun old => unscheduled (.inl old))
    (fun listed => unscheduled (.inr listed))).imp ?_
  intro queue' after holds
  exact ⟨holds.1, .inr (mem_append_right stack holds.2)⟩

theorem ends_scheduleInit [Fintype α] (before : State α) {fuel : Nat} {root : α}
    {stack queue : List α}
    (visit : Visit before.dependencies root before.Scheduled stack queue)
    (new : ¬ before.Scheduled obj) (reached : Reaches before.dependencies root obj)
    (unvisited : obj ∉ stack ++ queue)
    (path : ∀ lower ∈ stack, Reaches before.dependencies lower obj)
    (enough : Fintype.card α < fuel + stack.length + queue.length) :
    Ends (scheduleInit fuel obj queue) (before.visiting stack queue)
      (fun queue' after => Continues before root stack queue queue' after ∧ obj ∈ queue')
      Never := by
  induction fuel generalizing stack queue obj with
  | zero =>
    have := visit.length_le
    omega
  | succ fuel ih =>
    have off : obj ∉ stack := fun onStack => unvisited (mem_append_left _ onStack)
    have unscheduled : ¬ ((before.visiting stack queue).objects obj).scheduledForInit := by
      rw [before.scheduled_visiting]
      exact fun scheduled => scheduled.elim new unvisited
    have notOnStack : ¬ ((before.visiting stack queue).objects obj).onInitStack := by
      simp only [visiting, decide_eq_true_eq]
      exact off
    rw [scheduleInit, ends_bind, ends_getObject, ends_bind, ends_ensure notOnStack, ends_bind,
      ends_modifyObject, ends_bind, ends_ensure unscheduled, ends_bind, ends_modifyObject,
      before.visiting_enter, ends_bind]
    refine ends_foldlM (fun passed queue' after =>
      Continues before root (obj :: stack) queue queue' after ∧
      ∀ dep ∈ passed, before.Scheduled dep ∨ dep ∈ (obj :: stack) ++ queue')
      (before.dependencies obj) ?_
      ⟨⟨rfl, visit.enter new reached unvisited, prefix_refl queue⟩, by simp⟩ ?_
    · intro passed dep rest queue' s split holds
      obtain ⟨⟨rfl, inside, grown⟩, entered⟩ := holds
      have edge : dep ∈ before.dependencies obj := by
        rw [split]
        simp
      have longer := grown.length_le
      refine (ends_scheduleNext inside ?_).imp ?_
      · intro newDep unvisitedDep
        refine ih inside newDep (reached.tail edge) unvisitedDep ?_ ?_
        · intro lower onStack
          rcases mem_cons.mp onStack with same | below
          · rw [same]
            exact Relation.ReflTransGen.single edge
          · exact (path lower below).tail edge
        · rw [length_cons]
          omega
      intro queue'' after holds
      obtain ⟨⟨same, visited, more⟩, done⟩ := holds
      refine ⟨⟨same, visited, grown.trans more⟩, ?_⟩
      intro other listed
      rcases mem_append.mp listed with earlier | this
      · rcases entered other earlier with old | found
        · exact .inl old
        · refine .inr (mem_append.mpr ((mem_append.mp found).imp_right ?_))
          exact fun inQueue => more.subset inQueue
      · rw [mem_singleton.mp this]
        exact done
    · intro queue' s holds
      obtain ⟨⟨rfl, inside, grown⟩, entered⟩ := holds
      rw [ends_bind, ends_modifyObject, before.visiting_leave queue' off]
      exact ⟨⟨rfl, inside.leave path entered, grown.trans (prefix_append ..)⟩, by simp⟩

theorem ends_scheduleAll [Fintype α] (before : State α)
    (offStack : ∀ obj, (before.objects obj).onInitStack = false) (root : α)
    (linkBfs : List α) (reached : ∀ obj ∈ linkBfs, Reaches before.dependencies root obj) :
    Ends (linkBfs.foldlM (fun initQueue obj => do
        let so ← getObject obj
        if so.scheduledForInit then return initQueue
        else scheduleInit (Fintype.card α + 1) obj initQueue) []) before
      (fun queue after => after = before.visiting [] queue ∧
        Visit before.dependencies root before.Scheduled [] queue ∧
        ∀ obj ∈ linkBfs, before.Scheduled obj ∨ obj ∈ queue) Never := by
  refine ends_foldlM (fun passed queue after => Continues before root [] [] queue after ∧
    ∀ obj ∈ passed, before.Scheduled obj ∨ obj ∈ queue) linkBfs ?_
    ⟨⟨(before.visiting_start offStack).symm, Visit.start _ _ _, prefix_refl []⟩, by simp⟩ ?_
  · intro passed obj rest queue s split holds
    obtain ⟨⟨rfl, visit, _⟩, entered⟩ := holds
    refine (ends_scheduleNext visit ?_).imp ?_
    · intro new unvisited
      refine ends_scheduleInit before visit new (reached obj ?_) unvisited (by simp) ?_
      · rw [split]
        simp
      · omega
    intro queue' after holds
    obtain ⟨⟨same, visited, more⟩, done⟩ := holds
    refine ⟨⟨same, visited, nil_prefix⟩, ?_⟩
    intro other listed
    rcases mem_append.mp listed with earlier | this
    · exact (entered other earlier).imp_right (fun inQueue => more.subset inQueue)
    · rw [mem_singleton.mp this]
      exact done
  · intro queue s holds
    exact ⟨holds.1.1, holds.1.2.1, holds.2⟩

def State.initializing (s : State α) (passed : List α) : State α :=
  { s with
    objects := fun obj =>
      { s.objects obj with
        wasInitialized := (s.objects obj).wasInitialized ||
          (obj ∈ passed && !(s.objects obj).skipInit) }
    initialized := s.initialized ++ passed.filter fun obj =>
      !(s.objects obj).skipInit
    destructQueue := passed.reverse ++ s.destructQueue }

theorem State.initializing_skip (s : State α) (passed : List α)
    (skips : (s.objects obj).skipInit = true) :
    { s.initializing passed with
        destructQueue := obj :: (s.initializing passed).destructQueue } =
      s.initializing (passed ++ [obj]) := by
  simp only [initializing, filter_append, filter_singleton, skips, Bool.not_true,
    cond_false, append_nil, reverse_append]
  congr 1
  funext other
  by_cases this : other = obj
  · subst this
    simp [skips]
  · simp [this]

theorem State.initializing_run (s : State α) (passed : List α)
    (runs : (s.objects obj).skipInit = false) :
    { ({ s.initializing passed with
          initialized := (s.initializing passed).initialized ++ [obj] } : State α).update
        obj (fun so => { so with wasInitialized := true }) with
        destructQueue := obj :: (s.initializing passed).destructQueue } =
      s.initializing (passed ++ [obj]) := by
  simp only [initializing, update, filter_append, filter_singleton, runs,
    append_assoc, reverse_append]
  congr 1
  funext other
  by_cases this : other = obj
  · subst this
    simp [runs]
  · simp [this]

def SharedObject.Startable (so : SharedObject α) : Prop :=
  so.wasLinked = true ∧ so.wasInitialized = false ∧ so.initArraySize % initFuncPtrSize = 0

theorem ends_initQueue (s : State α) {queue : List α} (distinct : queue.Nodup)
    (startable : ∀ obj ∈ queue, (s.objects obj).Startable) :
    Ends (queue.forM initObject) s (fun _ after => after = s.initializing queue) Never := by
  refine ends_forM (fun passed after => after = s.initializing passed) queue ?_ ?_
    (fun _ holds => holds)
  · intro passed obj rest after split holds
    subst holds
    have new : obj ∉ passed := by
      rw [split] at distinct
      intro again
      exact (nodup_append.mp distinct).2.2 obj again obj (mem_cons_self ..) rfl
    obtain ⟨linked, uninitialized, sized⟩ := startable obj (by rw [split]; simp)
    have linked : ((s.initializing passed).objects obj).wasLinked = true := linked
    have sized : ((s.initializing passed).objects obj).initArraySize % initFuncPtrSize = 0 := sized
    have still : ((s.initializing passed).objects obj).wasInitialized = false := by
      simp [initializing, uninitialized, new]
    rw [initObject, ends_bind, ends_getObject, ends_ite]
    constructor
    · intro _
      rw [ends_ite]
      constructor
      · intro runs
        have runs : (s.objects obj).skipInit = false := Bool.eq_false_of_not_eq_true runs
        rw [ends_bind, doInitialize, ends_bind, ends_getObject, ends_bind, ends_ensure linked,
          ends_bind,
          ends_ensure (by rw [still]; decide), ends_bind, ends_modify, ends_bind,
          ends_ensure sized]
        exact s.initializing_run passed runs
      intro skips
      have skips : (s.objects obj).skipInit = true := Bool.of_not_eq_false (by
        intro runs
        exact skips (by simp [initializing, runs]))
      exact s.initializing_skip passed skips
    · intro initialized
      rw [still] at initialized
      exact absurd Bool.false_ne_true initialized
  · simp [initializing]

end Mlibc.Loader
