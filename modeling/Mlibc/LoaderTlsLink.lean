import Mlibc.LoaderTls

/-! # The static TLS area over the links of a process -/

namespace Mlibc.Loader

open BreadthFirst SharedObject List

variable {α : Type}

/-- The largest alignment is an alignment; the initial link raises it to the alignments of
its objects. -/
structure RaisesMaximum (ld : Loader α) (s after : State α) : Prop where
  aligned : IsAlignment after.tlsMaxAlignment
  grows : s.tlsMaxAlignment.toNat ≤ after.tlsMaxAlignment.toNat
  later : ld.isInitialLink = false → after.tlsMaxAlignment = s.tlsMaxAlignment
  attained : after.tlsMaxAlignment = s.tlsMaxAlignment ∨
    ∃ obj, after.tlsMaxAlignment = (s.objects obj).tlsAlignment

variable {s : State α}

theorem RaisesMaximum.refl (ld : Loader α)
    (maximum : IsAlignment s.tlsMaxAlignment) : RaisesMaximum ld s s :=
  ⟨maximum, le_rfl, fun _ => rfl, .inl rfl⟩

variable {ld : Loader α}

theorem RaisesMaximum.trans {s raised after : State α}
    (first : RaisesMaximum ld s raised) (second : RaisesMaximum ld raised after)
    (objects : raised.objects = s.objects) : RaisesMaximum ld s after where
  aligned := second.aligned
  grows := first.grows.trans second.grows
  later := fun isLater => (second.later isLater).trans (first.later isLater)
  attained := by
    rcases second.attained with same | ⟨obj, attained⟩
    · rw [same]
      exact first.attained
    · rw [objects] at attained
      exact .inr ⟨obj, attained⟩

def State.raise (s : State α) (ld : Loader α) (obj : α) : State α :=
  if ld.isInitialLink ∧ s.tlsMaxAlignment < (s.objects obj).tlsAlignment then
    { s with tlsMaxAlignment := (s.objects obj).tlsAlignment }
  else s

theorem State.objects_raise (s : State α) (ld : Loader α) (obj : α) :
    (s.raise ld obj).objects = s.objects := by
  unfold State.raise
  split <;> rfl

theorem raisesMaximum_raise (ld : Loader α) {obj : α} (maximum : IsAlignment s.tlsMaxAlignment)
    (power : (s.objects obj).tlsAlignment &&& ((s.objects obj).tlsAlignment - 1) = 0) :
    RaisesMaximum ld s (s.raise ld obj) ∧
      (ld.isInitialLink = true → (s.objects obj).tlsAlignment.toNat ≤
        (s.raise ld obj).tlsMaxAlignment.toNat) := by
  unfold State.raise
  split
  case isTrue larger =>
    have above : s.tlsMaxAlignment.toNat < (s.objects obj).tlsAlignment.toNat := larger.2
    refine ⟨⟨⟨?_, power⟩, above.le, ?_, .inr ⟨obj, rfl⟩⟩, fun _ => le_rfl⟩
    · intro zero
      have zero : (s.objects obj).tlsAlignment = 0 := zero
      rw [zero] at above
      exact Nat.not_lt_zero _ above
    · intro isLater
      rw [larger.1] at isLater
      cases isLater
  case isFalse notLarger =>
    refine ⟨RaisesMaximum.refl ld maximum, ?_⟩
    intro isInitial
    exact not_lt.mp fun larger => notLarger ⟨isInitial, larger⟩

variable [DecidableEq α] {linkBfs : List α}

theorem prefix_pushDependencies (dependencies : List α) (set : Finset α) (linkBfs : List α) :
    linkBfs <+: (pushDependencies dependencies set linkBfs).2 := by
  induction dependencies generalizing set linkBfs with
  | nil => exact prefix_refl linkBfs
  | cons dep rest ih =>
    rw [pushDependencies]
    split
    · exact ih set linkBfs
    · exact (prefix_append linkBfs [dep]).trans (ih _ _)

theorem ends_buildLinkBfsLoop_maximum (ld : Loader α) {fuel index : Nat} {set : Finset α}
    (maximum : IsAlignment s.tlsMaxAlignment) :
    Ends (buildLinkBfsLoop ld fuel index set linkBfs) s
      (fun list after => linkBfs <+: list ∧ RaisesMaximum ld s after ∧
        (ld.isInitialLink = true → ∀ obj ∈ list.drop index,
          (s.objects obj).tlsAlignment.toNat ≤ after.tlsMaxAlignment.toNat))
      (fun _ _ => True) := by
  induction fuel generalizing index set linkBfs s with
  | zero => trivial
  | succ fuel ih =>
    rw [buildLinkBfsLoop]
    cases found : linkBfs[index]? with
    | none =>
      have past : linkBfs.drop index = [] :=
        drop_eq_nil_iff.mpr (getElem?_eq_none_iff.mp found)
      refine ⟨prefix_refl linkBfs, RaisesMaximum.refl ld maximum, ?_⟩
      intro _ obj listed
      rw [past] at listed
      cases listed
    | some current =>
      simp only [ends_bind, ensure, ends_require, implies_true, and_true]
      intro power
      obtain ⟨raises, above⟩ := raisesMaximum_raise ld maximum power
      refine (ih raises.aligned).imp ?_
      rintro list after ⟨grown, raisesMore, bounded⟩
      have longer := (prefix_pushDependencies _ set linkBfs).trans grown
      refine ⟨longer, raises.trans raisesMore (s.objects_raise ld current), ?_⟩
      intro isInitial obj listed
      rw [s.objects_raise] at bounded
      obtain ⟨bound, _⟩ := List.getElem?_eq_some_iff.mp found
      have atIndex : list[index]? = some current := by
        obtain ⟨suffix, rfl⟩ := longer
        rw [getElem?_append_left bound]
        exact found
      obtain ⟨listBound, same⟩ := List.getElem?_eq_some_iff.mp atIndex
      rw [drop_eq_getElem_cons listBound, same] at listed
      rcases mem_cons.mp listed with this | behind
      · rw [this]
        exact (above isInitial).trans raisesMore.grows
      · exact bounded isInitial obj behind

variable [Fintype α] {tlsAboveTp : Bool} {s : State α} {maximum : BitVec 64}

omit [DecidableEq α] in
theorem Placed.raise (placed : Placed tlsAboveTp s)
    (grows : s.tlsMaxAlignment.toNat ≤ maximum.toNat) :
    Placed tlsAboveTp { s with tlsMaxAlignment := maximum } where
  __ := placed
  blocks obj has :=
    let block := placed.blocks obj has
    { block with bounded := block.bounded.trans grows }

theorem ends_buildTlsMaps_initial
    (isInitial : ld.isInitialLink = true) (placed : Placed tlsAboveTp s)
    (fits : s.tlsTotal + 64 < 2 ^ 64)
    (alignable : ∀ obj ∈ linkBfs, (s.objects obj).tlsModel = .null →
      (s.objects obj).tlsSegmentSize ≠ 0 → s.Alignable obj) :
    Ends (buildTlsMaps ld tlsAboveTp linkBfs) s
      (fun _ after => s.runtimeTlsMap.initialLimit = 0 ∧ Placed tlsAboveTp after ∧
        after.tlsTotal = s.tlsTotal ∧ after.tlsMaxAlignment = s.tlsMaxAlignment ∧
        after.runtimeTlsMap.initialPtr.toNat ≤ after.runtimeTlsMap.initialLimit.toNat ∧
        after.runtimeTlsMap.initialLimit.toNat ≤ s.tlsTotal + 64)
      (fun _ _ => True) := by
  rw [buildTlsMaps, if_pos isInitial]
  simp only [ends_bind, ensure, ends_require, implies_true, and_true]
  intro _ first
  cases linkBfs.head? with
  | none => trivial
  | some front =>
    simp only [ends_bind, ends_require, implies_true, and_true]
    intro _
    refine ends_forM (fun _ after => Extends s after ∧ Placed tlsAboveTp after) linkBfs ?_
      ⟨Extends.refl s, placed⟩ ?_
    · intro passed obj rest after split holds
      refine ends_mapInitialObject obj holds.1 holds.2 (by omega) (alignable obj ?_)
      rw [split]
      simp
    intro after holds
    obtain ⟨extended, placed⟩ := holds
    have used := placed.used_le
    rw [extended.tlsTotal_eq] at used
    have limit : (after.runtimeTlsMap.initialPtr + 64).toNat =
        after.runtimeTlsMap.initialPtr.toNat + 64 := by
      bv_omega
    refine ⟨first, placed.congr ⟨rfl, fun _ => rfl⟩, extended.tlsTotal_eq,
      (Prod.mk.inj extended.same.1).1, ?_, ?_⟩
    · rw [limit]
      exact Nat.le_add_right _ _
    · change (after.runtimeTlsMap.initialPtr + 64).toNat ≤ _
      omega

theorem ends_buildTlsMaps_later (isLater : ld.isInitialLink = false) (placed : Placed tlsAboveTp s)
    (fits : s.tlsTotal < 2 ^ 64)
    (reserve : s.runtimeTlsMap.initialPtr.toNat ≤ s.runtimeTlsMap.initialLimit.toNat)
    (alignable : ∀ obj ∈ linkBfs, (s.objects obj).tlsModel = .null →
      (s.objects obj).tlsSegmentSize ≠ 0 → (s.objects obj).haveStaticTls →
      s.Alignable obj) :
    Ends (buildTlsMaps ld tlsAboveTp linkBfs) s
      (fun _ after => Placed tlsAboveTp after ∧ after.tlsTotal = s.tlsTotal ∧
        after.tlsMaxAlignment = s.tlsMaxAlignment ∧
        after.runtimeTlsMap.initialPtr.toNat ≤ after.runtimeTlsMap.initialLimit.toNat ∧
        after.runtimeTlsMap.initialLimit = s.runtimeTlsMap.initialLimit)
      (fun _ _ => True) := by
  rw [buildTlsMaps, if_neg (by rw [isLater]; decide)]
  refine ends_forM (fun _ after => Extends s after ∧ Placed tlsAboveTp after ∧
    after.runtimeTlsMap.initialPtr.toNat ≤ s.runtimeTlsMap.initialLimit.toNat) linkBfs ?_
    ⟨Extends.refl s, placed, reserve⟩ ?_
  · intro passed obj rest after split holds
    obtain ⟨extended, placed, within⟩ := holds
    refine ends_mapLaterObject obj extended placed fits within (alignable obj ?_)
    rw [split]
    simp
  · intro after holds
    obtain ⟨extended, placed, within⟩ := holds
    obtain ⟨maximum, limit⟩ := Prod.mk.inj extended.same.1
    exact ⟨placed, extended.tlsTotal_eq, maximum, limit ▸ within, limit⟩

/-- The TCBs that are allocated after the initial link need not change. -/
def State.KeepsArea (s after : State α) : Prop :=
  s.runtimeTlsMap.initialLimit ≠ 0 → after.tlsMaxAlignment = s.tlsMaxAlignment ∧
    after.runtimeTlsMap.initialLimit = s.runtimeTlsMap.initialLimit

/-- The side of the thread pointer on which the TLS area is, and the type `Tcb`. -/
structure Target where
  tlsAboveTp : Bool
  sizeofTcb : BitVec 64
  alignofTcb : BitVec 64
  aligned : IsAlignment alignofTcb
  multiple : alignofTcb.toNat ∣ sizeofTcb.toNat
  small : sizeofTcb.toNat + alignofTcb.toNat + 16 < 2 ^ 64

/-- The area is large enough for the blocks, and there is memory for it. -/
structure Layout (target : Target) (s : State α) : Prop where
  placed : Placed target.tlsAboveTp s
  reserve : s.runtimeTlsMap.initialPtr.toNat ≤ s.runtimeTlsMap.initialLimit.toNat
  aligned : IsAlignment s.tlsMaxAlignment
  bounded : s.tlsMaxAlignment.toNat ≤ 16 + s.tlsTotal
  room : s.runtimeTlsMap.initialLimit.toNat + target.sizeofTcb.toNat +
    target.alignofTcb.toNat + s.tlsMaxAlignment.toNat < 2 ^ 64

/-- A link that keeps the layout: every block has an alignment, after the initial link not above the
largest one, and the sizes fit into a machine word. -/
structure KeepsLayout (target : Target) (s : State α) (ld : Loader α) (root : α) : Prop where
  aligned : s.Aligned
  fits : 2 * s.tlsTotal + 80 + target.sizeofTcb.toNat + target.alignofTcb.toNat < 2 ^ 64
  alignable : ∀ obj, Reaches s.dependencies root obj →
    (s.objects obj).tlsModel = .null → (s.objects obj).tlsSegmentSize ≠ 0 →
    ld.isInitialLink = true ∨ (s.objects obj).haveStaticTls = true →
    (s.objects obj).tlsAlignment ≠ 0 ∧ (ld.isInitialLink = false →
      (s.objects obj).tlsAlignment.toNat ≤ s.tlsMaxAlignment.toNat)

omit [DecidableEq α] in
theorem State.tlsNeeds_le (s : State α) (obj : α) : (s.objects obj).tlsNeeds ≤ s.tlsTotal := by
  have nonnegative : ∀ obj ∈ Finset.univ, 0 ≤ (s.objects obj).tlsNeeds :=
    fun _ _ => Nat.zero_le _
  exact Finset.single_le_sum nonnegative (Finset.mem_univ obj)

variable {target : Target}

omit [DecidableEq α] in
theorem Layout.raise (layout : Layout target s)
    (raises : RaisesMaximum ld s { s with tlsMaxAlignment := maximum }) :
    Placed target.tlsAboveTp { s with tlsMaxAlignment := maximum } ∧
      maximum.toNat ≤ 16 + s.tlsTotal := by
  refine ⟨layout.placed.raise raises.grows, ?_⟩
  rcases raises.attained with same | ⟨obj, attained⟩
  · have same : maximum = s.tlsMaxAlignment := same
    rw [same]
    exact layout.bounded
  have attained : maximum = (s.objects obj).tlsAlignment := attained
  have needs := s.tlsNeeds_le obj
  rw [tlsNeeds] at needs
  rw [attained]
  omega

theorem ends_buildTlsMaps_layout {root : α} (layout : Layout target s)
    (keeps : KeepsLayout target s ld root)
    (reaches : ∀ obj ∈ linkBfs, Reaches s.dependencies root obj)
    (raises : RaisesMaximum ld s { s with tlsMaxAlignment := maximum })
    (above : ld.isInitialLink = true → ∀ obj ∈ linkBfs,
      (s.objects obj).tlsAlignment.toNat ≤ maximum.toNat) :
    Ends (buildTlsMaps ld target.tlsAboveTp linkBfs) { s with tlsMaxAlignment := maximum }
      (fun _ after => Layout target after ∧ s.KeepsArea after)
      (fun _ _ => True) := by
  obtain ⟨placed, bounded⟩ := layout.raise raises
  have fits := keeps.fits
  have total : ({ s with tlsMaxAlignment := maximum } : State α).tlsTotal = s.tlsTotal :=
    rfl
  cases isInitial : ld.isInitialLink with
  | true =>
    refine (ends_buildTlsMaps_initial isInitial placed (by omega) ?_).imp ?_
    · intro obj listed null ne
      obtain ⟨nz, _⟩ := keeps.alignable obj (reaches obj listed) null ne (.inl isInitial)
      exact ⟨⟨nz, keeps.aligned obj⟩, above isInitial obj listed⟩
    rintro _ after ⟨first, placed, sameTotal, sameMaximum, reserve, limit⟩
    have sameMaximum : after.tlsMaxAlignment = maximum := sameMaximum
    refine ⟨⟨placed, reserve, ?_, ?_, ?_⟩, fun started => absurd first started⟩
    · rw [sameMaximum]
      exact raises.aligned
    · rw [sameMaximum, sameTotal]
      exact bounded
    · rw [sameMaximum]
      omega
  | false =>
    have unchanged : maximum = s.tlsMaxAlignment := raises.later isInitial
    refine (ends_buildTlsMaps_later isInitial placed (by omega) layout.reserve ?_).imp ?_
    · intro obj listed null ne static
      obtain ⟨nz, below⟩ := keeps.alignable obj (reaches obj listed) null ne (.inr static)
      refine ⟨⟨nz, keeps.aligned obj⟩, ?_⟩
      rw [unchanged]
      exact below isInitial
    rintro _ after ⟨placed, sameTotal, sameMaximum, reserve, limit⟩
    refine ⟨⟨placed, reserve, ?_, ?_, ?_⟩, fun _ => ⟨sameMaximum.trans unchanged, limit⟩⟩
    · rw [sameMaximum]
      exact raises.aligned
    · rw [sameMaximum, sameTotal]
      exact bounded
    · rw [sameMaximum, limit, unchanged]
      exact layout.room

def State.tlsArea (s : State α) : BitVec 64 × RuntimeTlsMap α :=
  (s.tlsMaxAlignment, s.runtimeTlsMap)

omit [DecidableEq α] in
theorem Layout.congr {next : State α} (layout : Layout target s)
    (same : SameAs tlsBlock State.tlsArea s next) : Layout target next := by
  obtain ⟨maximum, map⟩ := Prod.mk.inj same.1
  have total : next.tlsTotal = s.tlsTotal := by
    apply Finset.sum_congr rfl
    intro obj _
    have agree := same.2 obj
    simp only [tlsBlock, Prod.mk.injEq] at agree
    rw [tlsNeeds, tlsNeeds, agree.2.2.1, agree.2.2.2]
  refine ⟨layout.placed.congr ⟨?_, same.2⟩, ?_, ?_, ?_, ?_⟩
  · change (next.tlsMaxAlignment, _) = (s.tlsMaxAlignment, _)
    rw [maximum, map]
  · rw [map]
    exact layout.reserve
  · rw [maximum]
    exact layout.aligned
  · rw [maximum, total]
    exact layout.bounded
  · rw [maximum, map]
    exact layout.room

theorem linkObjects_layout {root : α}
    (layout : Layout target s) (keeps : KeepsLayout target s ld root) :
    Ends (linkObjects ld target.tlsAboveTp root) s
      (fun _ after => Layout target after ∧ s.KeepsArea after) (fun _ _ => True) := by
  obtain ⟨linkBfs, built, builds, ⟨order, listed, scan⟩, maximum, rfl⟩ :=
    (ends_buildLinkBfs ld keeps.aligned root).run
  obtain ⟨_, raises, above⟩ :=
    (ends_of_run builds).mp (ends_buildLinkBfsLoop_maximum ld layout.aligned)
  have reaches : ∀ obj ∈ linkBfs, Reaches s.dependencies root obj := by
    intro obj inList
    rw [listed] at inList
    exact (scan.mem_iff le_rfl obj).mp inList
  rw [linkObjects, ends_bind, ends_of_run builds, ends_bind]
  refine (ends_buildTlsMaps_layout layout keeps reaches raises above).imp ?_
  rintro _ mapped ⟨laidOut, keepsArea⟩
  rw [ends_bind]
  refine ends_forM (fun _ after => SameAs tlsBlock State.tlsArea mapped after)
    linkBfs ?_ (SameAs.refl _ _ mapped) ?_
  · intro _ obj _ after _ same
    exact (promoteObject_same (fun _ _ => rfl) (fun _ _ _ => rfl) ld obj same).of_never
  intro promoted same
  rw [ends_bind]
  refine ends_forM (fun _ after => SameAs tlsBlock State.tlsArea mapped after) linkBfs ?_ same ?_
  · intro _ obj _ after _ same
    exact relocateObject_same (fun _ _ => rfl) ld obj same
  intro relocated same
  rw [ends_bind]
  refine ends_forM (fun _ after => SameAs tlsBlock State.tlsArea mapped after) linkBfs ?_ same ?_
  · intro _ obj _ after _ same
    exact same.update obj _ rfl rfl rfl
  · intro linked same
    refine ⟨laidOut.congr same, fun started => ?_⟩
    obtain ⟨maximum, map⟩ := Prod.mk.inj same.1
    obtain ⟨sameMaximum, sameLimit⟩ := keepsArea started
    exact ⟨maximum.trans sameMaximum, map ▸ sameLimit⟩

end Mlibc.Loader
