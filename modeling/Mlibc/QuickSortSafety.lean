import Mlibc.QuickSort

/-! # The array is sorted -/

namespace Mlibc.QuickSort

variable {σ : Type}

def Decides (compare : Compare σ) (legal : Element → Prop) (below : Element → Element → Prop) :
    Prop :=
  ∀ session first second, legal first → legal second →
    ((compare session first second).1 ≤ 0 ↔ below first second)

/-- The elements up to the first position are below the pivot, the next ones are not. -/
def Zones (below : Element → Element → Prop) (first i j pivot : Nat)
    (elements : Nat → Element) : Prop :=
  (∀ k, first ≤ k → k < i → below (elements k) (elements pivot)) ∧
    ∀ k, i ≤ k → k < j → ¬below (elements k) (elements pivot)

section Zones

variable {below : Element → Element → Prop} {first i j pivot : Nat} {elements : Nat → Element}

theorem Zones.start : Zones below first first first pivot elements := by
  constructor <;> intro k firstLe lastLt <;> omega

theorem Zones.above (zones : Zones below first i j pivot elements)
    (above : ¬below (elements j) (elements pivot)) :
    Zones below first i (j + 1) pivot elements := by
  refine ⟨zones.1, ?_⟩
  intro k firstLe lastLt
  by_cases last : k = j
  · rw [last]
    exact above
  · exact zones.2 k firstLe (by omega)

theorem Zones.swap (zones : Zones below first i j pivot elements) (iLe : i ≤ j) (jLt : j < pivot)
    (isBelow : below (elements j) (elements pivot)) :
    Zones below first (i + 1) (j + 1) pivot (fun k => elements (Equiv.swap i j k)) := by
  have pivotStays : Equiv.swap i j pivot = pivot :=
    Equiv.swap_apply_of_ne_of_ne (by omega) (by omega)
  constructor
  · intro k kFirst kLast
    simp only [pivotStays]
    by_cases isI : k = i
    · rw [isI, Equiv.swap_apply_left]
      exact isBelow
    · rw [Equiv.swap_apply_of_ne_of_ne isI (by omega)]
      exact zones.1 k kFirst (by omega)
  intro k kFirst kLast
  simp only [pivotStays]
  by_cases isJ : k = j
  · rw [isJ, Equiv.swap_apply_right]
    exact zones.2 i le_rfl (by omega)
  · rw [Equiv.swap_apply_of_ne_of_ne (by omega) isJ]
    exact zones.2 k (by omega) (by omega)

theorem Zones.finish (zones : Zones below first i pivot pivot elements) (iLe : i ≤ pivot) :
    (∀ k, first ≤ k → k < i →
      below (elements (Equiv.swap i pivot k)) (elements (Equiv.swap i pivot i))) ∧
    ∀ k, i < k → k < pivot + 1 →
      ¬below (elements (Equiv.swap i pivot k)) (elements (Equiv.swap i pivot i)) := by
  rw [Equiv.swap_apply_left]
  constructor
  · intro k kFirst kLast
    rw [Equiv.swap_apply_of_ne_of_ne (by omega) (by omega)]
    exact zones.1 k kFirst kLast
  intro k kFirst kLast
  by_cases isPivot : k = pivot
  · rw [isPivot, Equiv.swap_apply_right]
    exact zones.2 i le_rfl (by omega)
  · rw [Equiv.swap_apply_of_ne_of_ne (by omega) isPivot]
    exact zones.2 k (by omega) (by omega)

end Zones

def SortedRange (below : Element → Element → Prop) (first last : Nat)
    (elements : Nat → Element) : Prop :=
  ∀ k l, first ≤ k → k < l → l < last → below (elements k) (elements l)

theorem SortedRange.join {below : Element → Element → Prop} {first pivot last : Nat}
    {elements : Nat → Element}
    (transitive : ∀ k < last, ∀ l < last, ∀ m < last, below (elements k) (elements l) →
      below (elements l) (elements m) → below (elements k) (elements m))
    (within : pivot < last)
    (left : SortedRange below first pivot elements)
    (right : SortedRange below (pivot + 1) last elements)
    (before : ∀ k, first ≤ k → k < pivot → below (elements k) (elements pivot))
    (behind : ∀ k, pivot < k → k < last → below (elements pivot) (elements k)) :
    SortedRange below first last elements := by
  intro k l kFirst kLt lLast
  obtain kBefore | rfl | kBehind := Nat.lt_trichotomy k pivot
  · obtain lBefore | rfl | lBehind := Nat.lt_trichotomy l pivot
    · exact left k l kFirst kLt lBefore
    · exact before k kFirst kBefore
    · exact transitive k (by omega) pivot within l lLast (before k kFirst kBefore)
        (behind l lBehind lLast)
  · exact behind l kLt lLast
  · exact right k l kBehind kLt lLast

/-- The order is total and transitive on the elements of the array. -/
structure TotalPreorder (legal : Element → Prop) (below : Element → Element → Prop) : Prop where
  total : ∀ first second, legal first → legal second → below first second ∨ below second first
  trans : ∀ first second third, legal first → legal second → legal third →
    below first second → below second third → below first third

theorem forall_lt_of_rearranges {first last count : Nat} {legal : Element → Prop}
    {before after : Nat → Element} (rearranges : Rearranges first last before after)
    (lastLe : last ≤ count) (legals : ∀ k < count, legal (before k)) :
    ∀ k < count, legal (after k) := by
  intro k kLt
  have whole : Rearranges 0 count before after := rearranges.mono (Nat.zero_le first) lastLe
  exact whole.forall_range legal (fun k _ => legals k) k (Nat.zero_le k) kLt

theorem sorted_of_halves {legal : Element → Prop} {below : Element → Element → Prop}
    {first pivot last count : Nat} {parted halved after : Nat → Element}
    (preorder : TotalPreorder legal below) (within : pivot < last) (lastLe : last ≤ count)
    (legals : ∀ k < count, legal (parted k))
    (leftMoved : Rearranges first pivot parted halved)
    (rightMoved : Rearranges (pivot + 1) last halved after)
    (before : ∀ k, first ≤ k → k < pivot → below (parted k) (parted pivot))
    (behind : ∀ k, pivot < k → k < last → ¬below (parted k) (parted pivot))
    (leftSorted : SortedRange below first pivot halved)
    (rightSorted : SortedRange below (pivot + 1) last after) :
    SortedRange below first last after := by
  have stays : after pivot = parted pivot := by
    rw [rightMoved.outside (by omega), leftMoved.outside (by omega)]
  have halvedLegals := forall_lt_of_rearranges leftMoved (by omega) legals
  have afterLegals := forall_lt_of_rearranges rightMoved lastLe halvedLegals
  apply SortedRange.join _ within _ rightSorted
  · intro k kFirst kLt
    rw [rightMoved.outside (by omega), stays]
    exact leftMoved.forall_range (below · (parted pivot)) before k kFirst kLt
  · rw [stays]
    apply rightMoved.forall_range (below (parted pivot) ·)
    intro k kFirst kLt
    rw [leftMoved.outside (by omega)]
    have either := preorder.total _ _ (legals pivot (by omega)) (legals k (by omega))
    exact either.resolve_right (behind k kFirst kLt)
  · intro k kLt l lLt m mLt
    exact preorder.trans _ _ _ (afterLegals k (by omega)) (afterLegals l (by omega))
      (afterLegals m (by omega))
  · intro k l kFirst kLt lLast
    rw [rightMoved.outside (by omega), rightMoved.outside (by omega)]
    exact leftSorted k l kFirst kLt lLast

section Runs

variable {compare : Compare σ} {size count : Nat} (legal : Element → Prop)
  (below : Element → Element → Prop) {world : World σ}

variable (whole : world.memory.length = count * size)

include whole

theorem ends_partitionLoop {passes first i j pivot : Nat} (firstLe : first ≤ i) (iLe : i ≤ j)
    (ends : j + passes = pivot) (within : pivot < count) :
    Ends (partitionLoop compare size pivot passes i j) world
      (fun i' after => after.memory.length = world.memory.length ∧ first ≤ i' ∧ i' ≤ pivot ∧
        Rearranges first pivot (element size world.memory) (element size after.memory) ∧
        (Decides compare legal below → (∀ k < count, legal (element size world.memory k)) →
          Zones below first i j pivot (element size world.memory) →
          Zones below first i' pivot pivot (element size after.memory))) Never := by
  induction passes generalizing i j world with
  | zero =>
    have atEnd : j = pivot := by omega
    subst atEnd
    exact ⟨rfl, firstLe, iLe, .refl _ _ _, fun _ _ zones => zones⟩
  | succ passes ih =>
    rw [partitionLoop, ends_bind]
    refine (ends_compareIdx whole (by omega) within).mono ?_ (fun _ _ => id)
    rintro result compared ⟨same, answer⟩
    rw [ends_ite]
    constructor
    · intro atMost
      rw [ends_bind]
      have swaps : Ends (swapIdx size i j) compared _ Never :=
        ends_swapIdx (by rw [same, whole]) (by omega) (by omega)
      refine swaps.mono ?_ (fun _ _ => id)
      rintro _ swapped ⟨_, length, exchanged⟩
      rw [same] at length exchanged
      have moved : Rearranges first pivot (element size world.memory)
          (element size swapped.memory) :=
        .swap firstLe (by omega) (by omega) (by omega) exchanged
      refine (ih (length.trans whole) (by omega) (by omega) (by omega)).mono ?_ (fun _ _ => id)
      rintro i' after ⟨afterLength, i'First, i'Le, rearranged, zonesAfter⟩
      refine ⟨afterLength.trans length, i'First, i'Le, moved.trans rearranged, ?_⟩
      intro decides legals zones
      apply zonesAfter decides
      · exact forall_lt_of_rearranges moved (by omega) legals
      have isBelow : below (element size world.memory j) (element size world.memory pivot) := by
        rw [answer] at atMost
        exact (decides _ _ _ (legals j (by omega)) (legals pivot within)).mp atMost
      rw [funext exchanged]
      exact zones.swap iLe (by omega) isBelow
    · intro above
      have length : compared.memory.length = count * size := by rw [same, whole]
      refine (ih length firstLe (by omega) (by omega)).mono ?_ (fun _ _ => id)
      rw [same]
      rintro i' after ⟨afterLength, i'First, i'Le, rearranged, zonesAfter⟩
      refine ⟨afterLength, i'First, i'Le, rearranged, ?_⟩
      intro decides legals zones
      apply zonesAfter decides legals
      apply zones.above
      rw [← decides world.session _ _ (legals j (by omega)) (legals pivot within), ← answer]
      exact above

theorem ends_partition {first last : Nat} (firstLt : first < last) (lastLe : last ≤ count) :
    Ends (partition compare size first last) world
      (fun i after => after.memory.length = world.memory.length ∧ first ≤ i ∧ i < last ∧
        Rearranges first last (element size world.memory) (element size after.memory) ∧
        (Decides compare legal below → (∀ k < count, legal (element size world.memory k)) →
          (∀ k, first ≤ k → k < i →
            below (element size after.memory k) (element size after.memory i)) ∧
          ∀ k, i < k → k < last →
            ¬below (element size after.memory k) (element size after.memory i))) Never := by
  rw [partition, ends_bind, ends_require_of firstLt]
  rw [ends_bind]
  have loop : Ends (partitionLoop compare size (last - 1) (last - 1 - first) first first) world
      _ Never :=
    ends_partitionLoop legal below whole le_rfl le_rfl (by omega)
    (by omega)
  refine loop.mono ?_ (fun _ _ => id)
  rintro i looped ⟨length, firstLe, iLe, moved, zones⟩
  rw [ends_bind]
  have swaps : Ends (swapIdx size i (last - 1)) looped _ Never :=
    ends_swapIdx (length.trans whole) (by omega) (by omega)
  refine swaps.mono ?_ (fun _ _ => id)
  rintro _ after ⟨_, afterLength, exchanged⟩
  have pivotMoves : Rearranges first last (element size looped.memory)
      (element size after.memory) :=
    .swap firstLe (by omega) (by omega) (by omega) exchanged
  refine ⟨afterLength.trans length, firstLe, by omega,
    (moved.mono le_rfl (by omega)).trans pivotMoves, ?_⟩
  intro decides legals
  have finish := (zones decides legals Zones.start).finish iLe
  rw [Nat.sub_add_cancel (by omega)] at finish
  simp only [exchanged]
  exact finish

theorem ends_quickSort {fuel first last : Nat} (firstLe : first ≤ last) (lastLe : last ≤ count)
    (enough : last - first < fuel) :
    Ends (quickSort compare size fuel first last) world
      (fun _ after => after.memory.length = world.memory.length ∧
        Rearranges first last (element size world.memory) (element size after.memory) ∧
        (Decides compare legal below → TotalPreorder legal below →
          (∀ k < count, legal (element size world.memory k)) →
          SortedRange below first last (element size after.memory))) Never := by
  induction fuel generalizing first last world with
  | zero => omega
  | succ fuel ih =>
    rw [quickSort, ends_bind, ends_require_of firstLe, ends_ite]
    constructor
    · intro short
      refine ⟨rfl, .refl _ _ _, ?_⟩
      intro _ _ _ k l kFirst kLt lLast
      omega
    intro long
    rw [ends_bind]
    have partitions : Ends (partition compare size first last) world _ Never :=
      ends_partition legal below whole (by omega) lastLe
    refine partitions.mono ?_ (fun _ _ => id)
    rintro pivot parted ⟨partedLength, pivotFirst, pivotLast, moved, zones⟩
    rw [ends_bind]
    refine (ih (partedLength.trans whole) pivotFirst (by omega) (by omega)).mono ?_ (fun _ _ => id)
    rintro _ halved ⟨halvedLength, leftMoved, leftSorted⟩
    have halvedWhole := (halvedLength.trans partedLength).trans whole
    refine (ih halvedWhole pivotLast lastLe (by omega)).mono ?_ (fun _ _ => id)
    rintro _ after ⟨afterLength, rightMoved, rightSorted⟩
    refine ⟨(afterLength.trans halvedLength).trans partedLength,
      (moved.trans (leftMoved.mono le_rfl (by omega))).trans
        (rightMoved.mono (by omega) le_rfl), ?_⟩
    intro decides preorder legals
    have partedLegals := forall_lt_of_rearranges moved lastLe legals
    have halvedLegals := forall_lt_of_rearranges leftMoved (by omega) partedLegals
    obtain ⟨before, behind⟩ := zones decides legals
    exact sorted_of_halves preorder pivotLast lastLe partedLegals leftMoved rightMoved before
      behind (leftSorted decides preorder partedLegals)
      (rightSorted decides preorder halvedLegals)

end Runs

def elements (size count : Nat) (memory : List UInt8) : List Element :=
  (List.range count).map (element size memory)

/-- `qsort_impl` ends and leaves a permutation of the elements, which is sorted if the answers are
those of a total preorder. -/
theorem qsortImpl_sorts (compare : Compare σ) (size count : Nat) (world : World σ)
    (whole : world.memory.length = count * size) {fuel : Nat} (enough : count < fuel) :
    ∃ after, qsortImpl compare count size fuel world = .ok () after ∧
      after.memory.length = world.memory.length ∧
      (elements size count after.memory).Perm (elements size count world.memory) ∧
      ∀ below, Decides compare (· ∈ elements size count world.memory) below →
        TotalPreorder (· ∈ elements size count world.memory) below →
        (elements size count after.memory).Pairwise below := by
  have legals : ∀ k < count, element size world.memory k ∈ elements size count world.memory := by
    intro k kLt
    exact List.mem_map_of_mem (List.mem_range.mpr kLt)
  have ends (below : Element → Element → Prop) :
      Ends (qsortImpl compare count size fuel) world _ Never :=
    ends_quickSort (· ∈ elements size count world.memory) below whole (Nat.zero_le count)
      le_rfl enough
  obtain ⟨_, after, ran, length, rearranged, _⟩ := (ends fun _ _ => True).run
  refine ⟨after, ran, length, rearranged.perm, ?_⟩
  intro below decides preorder
  obtain ⟨_, _, sorted⟩ := (ends_of_run ran).mp (ends below)
  rw [elements, List.pairwise_map]
  apply List.pairwise_lt_range.imp_of_mem
  intro k l _ lMem kLt
  exact sorted decides preorder legals k l (Nat.zero_le k) kLt (List.mem_range.mp lMem)

def compareSecond : Compare Unit := fun session first second =>
  (((first.getD 1 0).toNat : Int) - (second.getD 1 0).toNat, session)

theorem qsortImpl_sorts_second :
    ∃ after, qsortImpl compareSecond 3 2 4 ⟨[1, 9, 2, 5, 3, 7], ()⟩ = .ok () after ∧
      (elements 2 3 after.memory).Perm [[1, 9], [2, 5], [3, 7]] ∧
      (elements 2 3 after.memory).Pairwise
        (fun first second => (first.getD 1 0).toNat ≤ (second.getD 1 0).toNat) := by
  obtain ⟨after, ran, _, perm, sorted⟩ := qsortImpl_sorts compareSecond 2 3
    ⟨[1, 9, 2, 5, 3, 7], ()⟩ rfl (Nat.lt_succ_self 3)
  refine ⟨after, ran, perm, sorted _ ?_ ?_⟩
  · intro _ first second _ _
    simp only [compareSecond]
    omega
  constructor
  · intro first second _ _
    exact Nat.le_total _ _
  · intro first second third _ _ _
    exact Nat.le_trans

end Mlibc.QuickSort
