import Mathlib.Algebra.BigOperators.Group.Finset.Basic
import Mathlib.Algebra.Order.BigOperators.Group.Finset
import Mlibc.LoaderLink
import Mlibc.WordAlignment

/-! # The layout of the static TLS area -/

namespace Mlibc.Loader

open BreadthFirst Function SharedObject Finset

variable {α : Type}

theorem alignPtr_spec {ptr align : BitVec 64} (aligned : IsAlignment align)
    (fits : ptr.toNat + align.toNat ≤ 2 ^ 64) :
    align.toNat ∣ (alignPtr ptr align).toNat ∧ ptr.toNat ≤ (alignPtr ptr align).toNat ∧
      (alignPtr ptr align).toNat < ptr.toNat + align.toNat := by
  have pos := aligned.toNat_pos
  have masked := aligned.toNat_and_sub_one ptr
  have remainder := Nat.mod_lt ptr.toNat pos
  have below := Nat.mod_le ptr.toNat align.toNat
  simp only [alignPtr]
  by_cases misaligned : ptr &&& (align - 1) = 0
  · rw [if_neg (not_not.mpr misaligned)]
    exact ⟨(aligned.and_sub_one_eq_zero_iff ptr).mp misaligned, le_rfl, by omega⟩
  rw [if_pos misaligned]
  have off : 0 < ptr.toNat % align.toNat := by
    apply Nat.pos_of_ne_zero
    intro zero
    rw [zero] at masked
    exact misaligned (BitVec.eq_of_toNat_eq masked)
  have rounded : (ptr + (align - (ptr &&& (align - 1)))).toNat =
      ptr.toNat - ptr.toNat % align.toNat + align.toNat := by
    bv_omega
  rw [rounded]
  refine ⟨?_, by omega, by omega⟩
  exact Nat.dvd_add (Nat.dvd_sub_mod ptr.toNat) (Nat.dvd_refl _)

def SharedObject.tlsStart (so : SharedObject α) (tlsAboveTp : Bool) : Nat :=
  if tlsAboveTp then so.tlsOffset.toNat
  else (-so.tlsOffset).toNat - so.tlsSegmentSize.toNat

def SharedObject.tlsStop (so : SharedObject α) (tlsAboveTp : Bool) : Nat :=
  if tlsAboveTp then so.tlsOffset.toNat + so.tlsSegmentSize.toNat
  else (-so.tlsOffset).toNat

def SharedObject.tlsFirst (so : SharedObject α) (tlsAboveTp : Bool) : Nat :=
  if tlsAboveTp then so.tlsStart tlsAboveTp else so.tlsStop tlsAboveTp

def SharedObject.tlsNeeds (so : SharedObject α) : Nat :=
  so.tlsSegmentSize.toNat + so.tlsAlignment.toNat

def SharedObject.tlsBlock (so : SharedObject α) : Bool × BitVec 64 × BitVec 64 × BitVec 64 :=
  (so.tlsModel = .initial, so.tlsOffset, so.tlsSegmentSize, so.tlsAlignment)

/-- The block of the object is at distances that were not used before. -/
structure Places (tlsAboveTp : Bool) (used : Nat) (so : SharedObject α) (ptr : BitVec 64) :
    Prop where
  unused : used ≤ so.tlsStart tlsAboveTp
  sized : so.tlsStart tlsAboveTp + so.tlsSegmentSize.toNat = so.tlsStop tlsAboveTp
  stops : so.tlsStop tlsAboveTp ≤ ptr.toNat
  needs : ptr.toNat ≤ used + so.tlsNeeds
  multiple : so.tlsAlignment.toNat ∣ so.tlsFirst tlsAboveTp

variable {so : SharedObject α}

theorem SharedObject.tlsBlock_congr {other : SharedObject α} (tlsAboveTp : Bool)
    (same : other.tlsBlock = so.tlsBlock) :
    (other.tlsModel = .initial ↔ so.tlsModel = .initial) ∧
      other.tlsStart tlsAboveTp = so.tlsStart tlsAboveTp ∧
      other.tlsStop tlsAboveTp = so.tlsStop tlsAboveTp ∧
      other.tlsSegmentSize = so.tlsSegmentSize ∧ other.tlsAlignment = so.tlsAlignment := by
  simp only [tlsBlock, Prod.mk.injEq, decide_eq_decide] at same
  obtain ⟨had, offset, size, align⟩ := same
  simp only [tlsStart, tlsStop, had, offset, size, align, and_self]

section

variable {used : BitVec 64} (aligned : IsAlignment so.tlsAlignment)
  (fits : used.toNat + so.tlsNeeds < 2 ^ 64)

include aligned fits

theorem places_above : Places true used.toNat
      { so with tlsModel := .initial, tlsOffset := alignPtr used so.tlsAlignment }
      (alignPtr used so.tlsAlignment + so.tlsSegmentSize) := by
  simp only [tlsNeeds] at fits
  obtain ⟨multiple, above, below⟩ := alignPtr_spec aligned
    (by omega : used.toNat + so.tlsAlignment.toNat ≤ 2 ^ 64)
  have sum : (alignPtr used so.tlsAlignment + so.tlsSegmentSize).toNat =
      (alignPtr used so.tlsAlignment).toNat + so.tlsSegmentSize.toNat := by
    bv_omega
  constructor
  · exact above
  · rfl
  · rw [sum]
    exact le_rfl
  · simp only [tlsNeeds]
    omega
  · exact multiple

theorem places_below : Places false used.toNat { so with
        tlsModel := .initial
        tlsOffset := -alignPtr (used + so.tlsSegmentSize) so.tlsAlignment }
      (alignPtr (used + so.tlsSegmentSize) so.tlsAlignment) := by
  simp only [tlsNeeds] at fits
  have sum : (used + so.tlsSegmentSize).toNat = used.toNat + so.tlsSegmentSize.toNat := by
    bv_omega
  obtain ⟨multiple, above, below⟩ := alignPtr_spec aligned
    (by omega : (used + so.tlsSegmentSize).toNat + so.tlsAlignment.toNat ≤ 2 ^ 64)
  have dist : (- -alignPtr (used + so.tlsSegmentSize) so.tlsAlignment).toNat =
      (alignPtr (used + so.tlsSegmentSize) so.tlsAlignment).toNat := by
    rw [BitVec.neg_neg]
  constructor
  · change used.toNat ≤ (- -alignPtr _ _).toNat - so.tlsSegmentSize.toNat
    omega
  · change (- -alignPtr _ _).toNat - so.tlsSegmentSize.toNat +
      so.tlsSegmentSize.toNat = (- -alignPtr _ _).toNat
    omega
  · exact dist.le
  · simp only [tlsNeeds]
    omega
  · change _ ∣ (- -alignPtr _ _).toNat
    rw [dist]
    exact multiple

end

def State.HasBlock (s : State α) (obj : α) : Prop :=
  (s.objects obj).tlsModel = .initial

instance (s : State α) : DecidablePred s.HasBlock := fun obj =>
  inferInstanceAs (Decidable ((s.objects obj).tlsModel = .initial))

/-- The block of the object is aligned and lies in the part of the area that is used. -/
@[mk_iff]
structure BlockWithin (tlsAboveTp : Bool) (maximum used : Nat) (so : SharedObject α) : Prop where
  nonempty : so.tlsSegmentSize ≠ 0
  aligned : IsAlignment so.tlsAlignment
  bounded : so.tlsAlignment.toNat ≤ maximum
  sized : so.tlsStart tlsAboveTp + so.tlsSegmentSize.toNat = so.tlsStop tlsAboveTp
  inside : so.tlsStop tlsAboveTp ≤ used
  multiple : so.tlsAlignment.toNat ∣ so.tlsFirst tlsAboveTp

/-- Every block is inside of the used part of the area, and the blocks are disjoint. -/
structure Placed [Fintype α] (tlsAboveTp : Bool) (s : State α) : Prop where
  blocks : ∀ obj, s.HasBlock obj → BlockWithin tlsAboveTp s.tlsMaxAlignment.toNat
    s.runtimeTlsMap.initialPtr.toNat (s.objects obj)
  disjoint : ∀ obj other, s.HasBlock obj → s.HasBlock other → obj ≠ other →
    (s.objects obj).tlsStop tlsAboveTp ≤ (s.objects other).tlsStart tlsAboveTp ∨
      (s.objects other).tlsStop tlsAboveTp ≤ (s.objects obj).tlsStart tlsAboveTp
  needs : s.runtimeTlsMap.initialPtr.toNat ≤ ∑ obj with s.HasBlock obj, (s.objects obj).tlsNeeds

variable [Fintype α] {tlsAboveTp : Bool} {s next : State α}

theorem Placed.start (tlsAboveTp : Bool) (unplaced : ∀ obj, ¬ s.HasBlock obj)
    (unused : s.runtimeTlsMap.initialPtr = 0) : Placed tlsAboveTp s where
  blocks obj placed := absurd placed (unplaced obj)
  disjoint obj _ placed := absurd placed (unplaced obj)
  needs := by
    rw [unused]
    exact Nat.zero_le _

theorem Placed.congr (placed : Placed tlsAboveTp s) (same : SameAs tlsBlock
      (fun s => (s.tlsMaxAlignment, s.runtimeTlsMap.initialPtr)) s next) :
    Placed tlsAboveTp next := by
  obtain ⟨maximum, ptr⟩ := Prod.mk.inj same.1
  have fields := fun obj => tlsBlock_congr tlsAboveTp (same.2 obj)
  have had : ∀ obj, next.HasBlock obj ↔ s.HasBlock obj := fun obj =>
    (fields obj).1
  refine ⟨?_, ?_, ?_⟩
  · intro obj has
    obtain ⟨_, start, stop, size, align⟩ := fields obj
    have block := placed.blocks obj ((had obj).mp has)
    rw [blockWithin_iff, tlsFirst] at block ⊢
    rwa [maximum, ptr, start, stop, size, align]
  · intro obj other has hasOther different
    obtain ⟨_, start, stop, _⟩ := fields obj
    obtain ⟨_, otherStart, otherStop, _⟩ := fields other
    rw [start, stop, otherStart, otherStop]
    exact placed.disjoint obj other ((had obj).mp has) ((had other).mp hasOther) different
  · have same : ∑ obj with next.HasBlock obj, (next.objects obj).tlsNeeds =
        ∑ obj with s.HasBlock obj, (s.objects obj).tlsNeeds := by
      apply sum_congr
      · ext obj
        simp only [mem_filter, had]
      · intro obj _
        obtain ⟨_, _, _, size, align⟩ := fields obj
        simp only [tlsNeeds, size, align]
    rw [same, ptr]
    exact placed.needs

def State.tlsTotal (s : State α) : Nat := ∑ obj, (s.objects obj).tlsNeeds

theorem Placed.used_le (placed : Placed tlsAboveTp s) :
    s.runtimeTlsMap.initialPtr.toNat ≤ s.tlsTotal := by
  refine placed.needs.trans ?_
  exact sum_le_sum_of_subset (filter_subset _ _)

def SharedObject.tlsSegment (so : SharedObject α) : BitVec 64 × BitVec 64 × Bool :=
  (so.tlsSegmentSize, so.tlsAlignment, so.haveStaticTls)

structure Extends (before after : State α) : Prop where
  same : SameAs SharedObject.tlsSegment
    (fun s => (s.tlsMaxAlignment, s.runtimeTlsMap.initialLimit)) before after
  models : ∀ obj, (after.objects obj).tlsModel = .null → (before.objects obj).tlsModel = .null

section Extends

variable {before : State α}

omit [Fintype α] in
theorem Extends.refl (s : State α) : Extends s s :=
  ⟨SameAs.refl _ _ s, fun _ null => null⟩

omit [Fintype α] in
theorem Extends.segment (extended : Extends before s) (obj : α) :
    (s.objects obj).tlsSegmentSize = (before.objects obj).tlsSegmentSize ∧
      (s.objects obj).tlsAlignment = (before.objects obj).tlsAlignment ∧
      (s.objects obj).haveStaticTls = (before.objects obj).haveStaticTls := by
  have agree := extended.same.2 obj
  simp only [tlsSegment, Prod.mk.injEq] at agree
  exact agree

theorem Extends.tlsTotal_eq (extended : Extends before s) : s.tlsTotal = before.tlsTotal := by
  apply sum_congr rfl
  intro obj _
  obtain ⟨size, align, _⟩ := extended.segment obj
  rw [tlsNeeds, tlsNeeds, size, align]

variable [DecidableEq α]

theorem Placed.place (placed : Placed tlsAboveTp s) {obj : α} (new : ¬ s.HasBlock obj)
    (places : Places tlsAboveTp s.runtimeTlsMap.initialPtr.toNat so next.runtimeTlsMap.initialPtr)
    (ne : so.tlsSegmentSize ≠ 0) (aligned : IsAlignment so.tlsAlignment)
    (bounded : so.tlsAlignment.toNat ≤ s.tlsMaxAlignment.toNat)
    (changed : next.objects = update s.objects obj so)
    (initial : so.tlsModel = .initial)
    (maximum : next.tlsMaxAlignment = s.tlsMaxAlignment) : Placed tlsAboveTp next := by
  have this : next.objects obj = so := by
    rw [changed, update_self]
  have old : ∀ {other}, other ≠ obj → next.objects other = s.objects other := by
    intro other different
    rw [changed, update_of_ne different]
  have hadBlock : ∀ {other}, other ≠ obj → (next.HasBlock other ↔ s.HasBlock other) := by
    intro other different
    rw [State.HasBlock, State.HasBlock, old different]
  have grows : s.runtimeTlsMap.initialPtr.toNat ≤ next.runtimeTlsMap.initialPtr.toNat := by
    have := places.unused
    have := places.sized
    have := places.stops
    omega
  have apart : ∀ other, other ≠ obj → next.HasBlock other →
      (next.objects other).tlsStop tlsAboveTp ≤ (next.objects obj).tlsStart tlsAboveTp := by
    intro other different has
    rw [old different, this]
    exact Nat.le_trans (placed.blocks other ((hadBlock different).mp has)).inside places.unused
  refine ⟨?_, ?_, ?_⟩
  · intro other has
    by_cases same : other = obj
    · rw [same, this, maximum]
      exact ⟨ne, aligned, bounded, places.sized, places.stops, places.multiple⟩
    · have block := placed.blocks other ((hadBlock same).mp has)
      rw [old same, maximum]
      exact { block with inside := block.inside.trans grows }
  · intro first second hasFirst hasSecond different
    by_cases isFirst : first = obj
    · rw [isFirst] at different ⊢
      exact .inr (apart second different.symm hasSecond)
    by_cases isSecond : second = obj
    · rw [isSecond]
      exact .inl (apart first isFirst hasFirst)
    · rw [old isFirst, old isSecond]
      exact placed.disjoint first second ((hadBlock isFirst).mp hasFirst)
        ((hadBlock isSecond).mp hasSecond) different
  have members : univ.filter next.HasBlock = insert obj (univ.filter s.HasBlock) := by
    ext other
    by_cases same : other = obj
    · simp [same, State.HasBlock, this, initial]
    · simp [same, hadBlock same]
  have sum : ∑ other with s.HasBlock other, (next.objects other).tlsNeeds =
      ∑ other with s.HasBlock other, (s.objects other).tlsNeeds := by
    apply sum_congr rfl
    intro other has
    rw [old]
    intro same
    rw [same] at has
    exact new (mem_filter.mp has).2
  rw [members, sum_insert (by simp [new]), sum, this]
  have := places.needs
  have := placed.needs
  omega

theorem Placed.room (placed : Placed tlsAboveTp s) {obj : α} (new : ¬ s.HasBlock obj) :
    s.runtimeTlsMap.initialPtr.toNat + (s.objects obj).tlsNeeds ≤ s.tlsTotal := by
  have all : ∑ obj ∈ insert obj (univ.filter fun obj => s.HasBlock obj),
      (s.objects obj).tlsNeeds ≤ s.tlsTotal :=
    sum_le_sum_of_subset (subset_univ _)
  rw [sum_insert (by simp [new])] at all
  have := placed.needs
  omega

omit [Fintype α] in
theorem Extends.update (extended : Extends before s) (obj : α) (so : SharedObject α)
    (changed : next.objects = update s.objects obj so)
    (segment : so.tlsSegment = (s.objects obj).tlsSegment)
    (models : so.tlsModel = .null → (s.objects obj).tlsModel = .null)
    (limits : (next.tlsMaxAlignment, next.runtimeTlsMap.initialLimit) =
      (s.tlsMaxAlignment, s.runtimeTlsMap.initialLimit)) : Extends before next := by
  refine ⟨extended.same.update obj so changed segment limits, ?_⟩
  intro other null
  rw [changed] at null
  by_cases this : other = obj
  · rw [this, update_self] at null
    rw [this]
    exact extended.models obj (models null)
  · rw [update_of_ne this] at null
    exact extended.models other null

def State.Alignable (s : State α) (obj : α) : Prop :=
  IsAlignment (s.objects obj).tlsAlignment ∧
    (s.objects obj).tlsAlignment.toNat ≤ s.tlsMaxAlignment.toNat

variable (obj : α) (extended : Extends before s) (placed : Placed tlsAboveTp s)
include obj extended placed

theorem ends_allocateIndex : Ends (allocateIndex obj) s
      (fun _ after => Extends before after ∧ Placed tlsAboveTp after ∧
        (after.objects obj).tlsModel = (s.objects obj).tlsModel ∧
        after.runtimeTlsMap.initialPtr = s.runtimeTlsMap.initialPtr) Never := by
  refine ⟨extended.update obj _ rfl rfl id rfl, placed.congr ?_, ?_, rfl⟩
  · exact (SameAs.refl _ _ s).update obj _ rfl rfl rfl
  · simp [State.update]

variable (fits : before.tlsTotal < 2 ^ 64)
include fits

theorem ends_placeInitial (new : ¬ s.HasBlock obj) (ne : (before.objects obj).tlsSegmentSize ≠ 0)
    (alignable : before.Alignable obj) :
    Ends (placeInitial tlsAboveTp obj) s
      (fun _ after => Extends before after ∧ Placed tlsAboveTp after) Never := by
  obtain ⟨aligned, bounded⟩ := alignable
  obtain ⟨size, align, _⟩ := extended.segment obj
  have maximum := (Prod.mk.inj extended.same.1).1
  rw [← size] at ne
  rw [← align] at aligned bounded
  rw [← maximum] at bounded
  have room : s.runtimeTlsMap.initialPtr.toNat + (s.objects obj).tlsNeeds < 2 ^ 64 :=
    (placed.room new).trans_lt (extended.tlsTotal_eq ▸ fits)
  cases tlsAboveTp
  · refine ⟨extended.update obj _ rfl rfl (by rintro ⟨⟩) rfl, ?_⟩
    exact placed.place new (places_below aligned room) ne aligned bounded rfl rfl rfl
  refine ⟨extended.update obj _ rfl rfl (by rintro ⟨⟩) rfl, ?_⟩
  exact placed.place new (places_above aligned room) ne aligned bounded rfl rfl rfl

theorem ends_mapInitialObject (alignable : (before.objects obj).tlsModel = .null →
      (before.objects obj).tlsSegmentSize ≠ 0 → before.Alignable obj) :
    Ends (mapInitialObject tlsAboveTp obj) s
      (fun _ after => Extends before after ∧ Placed tlsAboveTp after) (fun _ _ => True) := by
  simp only [mapInitialObject, ends_bind, ensure, ends_require, ends_ite, implies_true, and_true]
  intro null
  constructor
  · intro ne
    rw [(extended.segment obj).1] at ne
    have alignable := alignable (extended.models obj null) ne
    refine (ends_allocateIndex obj extended placed).of_never.imp ?_
    rintro _ after ⟨extended, placed, model, _⟩ _
    refine (ends_placeInitial obj extended placed fits ?_ ne alignable).of_never
    rw [State.HasBlock, model, null]
    rintro ⟨⟩
  · intro _
    exact ⟨extended, placed⟩

theorem ends_mapLaterObject
    (reserve : s.runtimeTlsMap.initialPtr.toNat ≤ before.runtimeTlsMap.initialLimit.toNat)
    (alignable : (before.objects obj).tlsModel = .null →
      (before.objects obj).tlsSegmentSize ≠ 0 → (before.objects obj).haveStaticTls →
      before.Alignable obj) :
    Ends (mapLaterObject tlsAboveTp obj) s
      (fun _ after => Extends before after ∧ Placed tlsAboveTp after ∧
        after.runtimeTlsMap.initialPtr.toNat ≤ before.runtimeTlsMap.initialLimit.toNat)
      (fun _ _ => True) := by
  simp only [mapLaterObject, ends_bind, ends_ite]
  constructor
  · rintro ⟨null, ne⟩
    obtain ⟨size, _, static⟩ := extended.segment obj
    rw [size] at ne
    refine (ends_allocateIndex obj extended placed).of_never.imp ?_
    rintro _ indexed ⟨extendedIndexed, placedIndexed, model, ptr⟩
    have new : ¬ indexed.HasBlock obj := by
      rw [State.HasBlock, model, null]
      rintro ⟨⟩
    constructor
    · intro needs
      rw [static] at needs
      refine (ends_placeInitial obj extendedIndexed placedIndexed fits new ne
        (alignable (extended.models obj null) ne needs)).of_never.imp ?_
      rintro _ after ⟨extended, placed⟩
      simp only [ends_throw, implies_true, true_and]
      intro within
      refine ⟨extended, placed, ?_⟩
      rw [← (Prod.mk.inj extended.same.1).2]
      exact not_lt.mp within
    intro _
    refine ⟨extendedIndexed.update obj _ rfl rfl (by rintro ⟨⟩) rfl, placedIndexed.congr ?_, ?_⟩
    · refine (SameAs.refl _ _ indexed).update obj _ rfl ?_ rfl
      simp only [tlsBlock, Prod.mk.injEq, and_true, decide_eq_decide]
      constructor
      · rintro ⟨⟩
      · exact fun initial => absurd initial new
    · change indexed.runtimeTlsMap.initialPtr.toNat ≤ _
      rw [ptr]
      exact reserve
  · intro _
    exact ⟨extended, placed, reserve⟩

end Extends

end Mlibc.Loader
