import Mlibc.LoaderTlsLink

/-! # The thread control blocks -/

namespace Mlibc.Loader

def alignUp (address align : BitVec 64) : BitVec 64 :=
  (address + align - 1) &&& ~~~(align - 1)

theorem alignUp_spec {address align : BitVec 64} (aligned : IsAlignment align)
    (fits : address.toNat + align.toNat ≤ 2 ^ 64) :
    align.toNat ∣ (alignUp address align).toNat ∧ address.toNat ≤ (alignUp address align).toNat ∧
      (alignUp address align).toNat < address.toNat + align.toNat := by
  have pos := aligned.toNat_pos
  have sum : (address + align - 1).toNat = address.toNat + align.toNat - 1 := by
    bv_omega
  have rounded : (alignUp address align).toNat =
      (address.toNat + align.toNat - 1) - (address.toNat + align.toNat - 1) % align.toNat := by
    rw [alignUp, aligned.toNat_and_not_sub_one, sum]
  have remainder := Nat.mod_lt (address.toNat + align.toNat - 1) pos
  rw [rounded]
  exact ⟨Nat.dvd_sub_mod _, by omega, by omega⟩

structure TcbArea where
  tcbAddress : BitVec 64
  tlsAddress : BitVec 64

variable {α : Type}

def State.alignOverhead (s : State α) (target : Target) : BitVec 64 :=
  if target.alignofTcb < s.tlsMaxAlignment then s.tlsMaxAlignment else target.alignofTcb

def State.allocSize (s : State α) (target : Target) : BitVec 64 :=
  s.runtimeTlsMap.initialLimit + target.sizeofTcb + s.alignOverhead target

/-- Where `allocateTcb` puts the TCB if the TLS area is above it: the address with the stricter
alignment is fixed first. -/
def State.areaAbove (s : State α) (target : Target) (allocation : BitVec 64) : TcbArea :=
  if target.alignofTcb < s.tlsMaxAlignment then
    let tlsAddress := alignUp (allocation + target.sizeofTcb) s.tlsMaxAlignment
    ⟨tlsAddress - target.sizeofTcb, tlsAddress⟩
  else
    let tcbAddress := alignUp allocation target.alignofTcb
    ⟨tcbAddress, tcbAddress + target.sizeofTcb⟩

def State.areaBelow (s : State α) (target : Target) (allocation : BitVec 64) : TcbArea :=
  let tlsInitialSize := s.runtimeTlsMap.initialLimit
  let tcbAddress := alignUp (allocation + tlsInitialSize) (s.alignOverhead target)
  ⟨tcbAddress, tcbAddress - tlsInitialSize⟩

def allocateTcb (target : Target) (allocation : BitVec 64) : LoaderM α TcbArea := do
  let s ← get
  if target.tlsAboveTp then
    let area := s.areaAbove target allocation
    ensure (area.tlsAddress &&& (s.tlsMaxAlignment - 1) = 0)
    ensure (area.tlsAddress = area.tcbAddress + target.sizeofTcb)
    ensure (area.tcbAddress &&& (target.alignofTcb - 1) = 0)
    return area
  else
    let area := s.areaBelow target allocation
    ensure (area.tcbAddress &&& (target.alignofTcb - 1) = 0)
    return area

def TcbArea.blockAddress (area : TcbArea) (target : Target) (so : SharedObject α) : BitVec 64 :=
  if target.tlsAboveTp then area.tcbAddress + target.sizeofTcb + so.tlsOffset
  else area.tcbAddress + so.tlsOffset

/-- The area and the TCB are inside of the allocated memory; the blocks are inside of the area,
aligned and disjoint. -/
structure TcbArea.Sound (area : TcbArea) (target : Target) (s : State α)
    (allocation : BitVec 64) : Prop where
  allocated : allocation.toNat ≤ area.tlsAddress.toNat ∧ area.tlsAddress.toNat +
    s.runtimeTlsMap.initialLimit.toNat ≤ allocation.toNat + (s.allocSize target).toNat
  allocatedTcb : allocation.toNat ≤ area.tcbAddress.toNat ∧ area.tcbAddress.toNat +
    target.sizeofTcb.toNat ≤ allocation.toNat + (s.allocSize target).toNat
  separate : area.tcbAddress.toNat + target.sizeofTcb.toNat ≤ area.tlsAddress.toNat ∨
    area.tlsAddress.toNat + s.runtimeTlsMap.initialLimit.toNat ≤ area.tcbAddress.toNat
  inside : ∀ obj, s.HasBlock obj →
    area.tlsAddress.toNat ≤ (area.blockAddress target (s.objects obj)).toNat ∧
      (area.blockAddress target (s.objects obj)).toNat + (s.objects obj).tlsSegmentSize.toNat ≤
        area.tlsAddress.toNat + s.runtimeTlsMap.initialLimit.toNat
  disjoint : ∀ obj other, s.HasBlock obj → s.HasBlock other → obj ≠ other →
    (area.blockAddress target (s.objects obj)).toNat + (s.objects obj).tlsSegmentSize.toNat ≤
        (area.blockAddress target (s.objects other)).toNat ∨
      (area.blockAddress target (s.objects other)).toNat + (s.objects other).tlsSegmentSize.toNat ≤
        (area.blockAddress target (s.objects obj)).toNat
  aligned : ∀ obj, s.HasBlock obj → (s.objects obj).tlsAlignment ≠ 0 →
    (s.objects obj).tlsAlignment.toNat ∣ (area.blockAddress target (s.objects obj)).toNat

/-- Every TCB that is allocated in the first state is sound in the other one. -/
def TlsSound (target : Target) (first s : State α) : Prop :=
  ∀ allocation : BitVec 64, allocation.toNat + (first.allocSize target).toNat ≤ 2 ^ 64 →
    ∃ area after, allocateTcb target allocation first = .ok area after ∧
      area.Sound target s allocation

section Sound

variable [Fintype α] {target : Target} {s : State α}

theorem Layout.isAlignment_overhead (layout : Layout target s) :
    IsAlignment (s.alignOverhead target) := by
  unfold State.alignOverhead
  split
  · exact layout.aligned
  · exact target.aligned

theorem Layout.overhead_bounds (layout : Layout target s) :
    target.alignofTcb.toNat ≤ (s.alignOverhead target).toNat ∧
      s.tlsMaxAlignment.toNat ≤ (s.alignOverhead target).toNat ∧
      (s.allocSize target).toNat = s.runtimeTlsMap.initialLimit.toNat +
        target.sizeofTcb.toNat + (s.alignOverhead target).toNat := by
  have room := layout.room
  have larger : target.alignofTcb.toNat ≤ (s.alignOverhead target).toNat ∧
      s.tlsMaxAlignment.toNat ≤ (s.alignOverhead target).toNat ∧
      (s.alignOverhead target).toNat ≤ target.alignofTcb.toNat + s.tlsMaxAlignment.toNat :=
    by
    unfold State.alignOverhead
    split_ifs <;> bv_omega
  unfold State.allocSize
  bv_omega

/-- The area begins behind the TCB or ends in front of it, and the end next to the TCB is
aligned. -/
structure TcbArea.Based (area : TcbArea) (target : Target) (s : State α)
    (allocation : BitVec 64) : Prop where
  tcb : target.alignofTcb.toNat ∣ area.tcbAddress.toNat
  above : target.tlsAboveTp = true →
    area.tlsAddress.toNat = area.tcbAddress.toNat + target.sizeofTcb.toNat ∧
      s.tlsMaxAlignment.toNat ∣ area.tlsAddress.toNat ∧
      allocation.toNat ≤ area.tcbAddress.toNat ∧
      area.tlsAddress.toNat + s.runtimeTlsMap.initialLimit.toNat ≤
        allocation.toNat + (s.allocSize target).toNat
  below : target.tlsAboveTp = false →
    area.tlsAddress.toNat + s.runtimeTlsMap.initialLimit.toNat = area.tcbAddress.toNat ∧
      s.tlsMaxAlignment.toNat ∣ area.tcbAddress.toNat ∧
      allocation.toNat ≤ area.tlsAddress.toNat ∧
      area.tcbAddress.toNat + target.sizeofTcb.toNat ≤ allocation.toNat + (s.allocSize target).toNat

variable {allocation : BitVec 64} (layout : Layout target s)
  (alloc : allocation.toNat + (s.allocSize target).toNat ≤ 2 ^ 64)
include layout alloc

theorem Layout.based_above (above : target.tlsAboveTp = true) :
    (s.areaAbove target allocation).Based target s allocation := by
  obtain ⟨alignofLe, maximumLe, size⟩ := layout.overhead_bounds
  have notBelow : ¬ target.tlsAboveTp = false := by simp [above]
  unfold State.areaAbove
  split
  case isTrue stricter =>
    have sum : (allocation + target.sizeofTcb).toNat =
        allocation.toNat + target.sizeofTcb.toNat := by
      bv_omega
    obtain ⟨multiple, least, under⟩ := alignUp_spec layout.aligned
      (by omega : (allocation + target.sizeofTcb).toNat + s.tlsMaxAlignment.toNat ≤ 2 ^ 64)
    generalize alignUp (allocation + target.sizeofTcb) s.tlsMaxAlignment = tls at *
    have tcb : (tls - target.sizeofTcb).toNat = tls.toNat - target.sizeofTcb.toNat := by bv_omega
    refine ⟨?_, fun _ => ⟨?_, multiple, ?_, ?_⟩, fun below => absurd below notBelow⟩
    · rw [tcb]
      exact Nat.dvd_sub ((target.aligned.dvd_of_le layout.aligned stricter.le).trans
        multiple) target.multiple
    · dsimp only
      omega
    · rw [tcb]
      omega
    · dsimp only
      omega
  case isFalse notStricter =>
    have weaker : s.tlsMaxAlignment.toNat ≤ target.alignofTcb.toNat :=
      not_lt.mp notStricter
    obtain ⟨multiple, least, under⟩ := alignUp_spec target.aligned
      (by omega : allocation.toNat + target.alignofTcb.toNat ≤ 2 ^ 64)
    generalize alignUp allocation target.alignofTcb = tcb at *
    have tls : (tcb + target.sizeofTcb).toNat = tcb.toNat + target.sizeofTcb.toNat := by bv_omega
    refine ⟨multiple, fun _ => ⟨tls, ?_, least, ?_⟩, fun below => absurd below notBelow⟩
    · rw [tls]
      exact (layout.aligned.dvd_of_le target.aligned weaker).trans
        (Nat.dvd_add multiple target.multiple)
    · rw [tls]
      omega

theorem Layout.based_below (below : target.tlsAboveTp = false) :
    (s.areaBelow target allocation).Based target s allocation := by
  obtain ⟨alignofLe, maximumLe, size⟩ := layout.overhead_bounds
  have aligned := layout.isAlignment_overhead
  have notAbove : ¬ target.tlsAboveTp = true := by simp [below]
  have pos := aligned.toNat_pos
  have sum : (allocation + s.runtimeTlsMap.initialLimit).toNat =
      allocation.toNat + s.runtimeTlsMap.initialLimit.toNat := by
    bv_omega
  obtain ⟨multiple, least, under⟩ := alignUp_spec aligned
    (by omega : (allocation + s.runtimeTlsMap.initialLimit).toNat +
      (s.alignOverhead target).toNat ≤ 2 ^ 64)
  simp only [State.areaBelow]
  generalize alignUp (allocation + _) _ = tcb at *
  have tls : (tcb - s.runtimeTlsMap.initialLimit).toNat =
      tcb.toNat - s.runtimeTlsMap.initialLimit.toNat := by
    bv_omega
  refine ⟨?_, fun above => absurd above notAbove, fun _ => ⟨?_, ?_, ?_, ?_⟩⟩
  · exact (target.aligned.dvd_of_le aligned alignofLe).trans multiple
  · dsimp only
    omega
  · exact (layout.aligned.dvd_of_le aligned maximumLe).trans multiple
  · rw [tls]
    omega
  · dsimp only
    omega

theorem Layout.ends_allocateTcb : Ends (allocateTcb target allocation) s
      (fun area _ => area.Based target s allocation) Never := by
  rw [allocateTcb, ends_bind, ends_get, ends_ite]
  constructor
  · intro above
    have based := layout.based_above alloc above
    obtain ⟨next, multiple, _, _⟩ := based.above above
    rw [ends_bind, ends_ensure ((layout.aligned.and_sub_one_eq_zero_iff _).mpr multiple),
      ends_bind, ends_ensure, ends_bind,
      ends_ensure ((target.aligned.and_sub_one_eq_zero_iff _).mpr based.tcb)]
    · exact based
    · bv_omega
  · intro notAbove
    have based := layout.based_below alloc (Bool.eq_false_of_not_eq_true notAbove)
    rw [ends_bind, ends_ensure ((target.aligned.and_sub_one_eq_zero_iff _).mpr based.tcb)]
    exact based

variable {area : TcbArea} (based : area.Based target s allocation)
include based

theorem TcbArea.Based.blockAddress_above (above : target.tlsAboveTp = true) {obj : α}
    (has : s.HasBlock obj) :
    (area.blockAddress target (s.objects obj)).toNat =
      area.tlsAddress.toNat + (s.objects obj).tlsStart true := by
  obtain ⟨next, _, _, high⟩ := based.above above
  have reserve := layout.reserve
  have block := layout.placed.blocks obj has
  have inside := block.inside
  have sized := block.sized
  have ne := block.nonempty
  rw [above] at inside sized
  simp only [SharedObject.tlsStart, if_true] at sized ⊢
  rw [TcbArea.blockAddress, if_pos above]
  bv_omega

omit alloc in
theorem TcbArea.Based.blockAddress_below (below : target.tlsAboveTp = false) {obj : α}
    (has : s.HasBlock obj) :
    (area.blockAddress target (s.objects obj)).toNat +
      (s.objects obj).tlsStop false = area.tcbAddress.toNat := by
  obtain ⟨next, _, _, _⟩ := based.below below
  have reserve := layout.reserve
  have inside := (layout.placed.blocks obj has).inside
  rw [below] at inside
  rw [TcbArea.blockAddress, if_neg (by simp [below])]
  simp only [SharedObject.tlsStop, Bool.false_eq_true, if_false] at inside ⊢
  bv_omega

theorem TcbArea.Based.sound : area.Sound target s allocation := by
  have reserve := layout.reserve
  have block := layout.placed.blocks
  have sized (obj : α) (has : s.HasBlock obj) := (block obj has).sized
  have inside (obj : α) (has : s.HasBlock obj) := (block obj has).inside
  have disjoint := layout.placed.disjoint
  have divides (obj : α) (has : s.HasBlock obj) :=
    (block obj has).aligned.dvd_of_le layout.aligned (block obj has).bounded
  cases side : target.tlsAboveTp with
  | true =>
    obtain ⟨next, multiple, low, high⟩ := based.above side
    have address (obj : α) (has : s.HasBlock obj) :=
      based.blockAddress_above layout alloc side has
    rw [side] at block sized inside disjoint
    refine ⟨⟨by omega, high⟩, ⟨low, by omega⟩, .inl (by omega), ?_, ?_, ?_⟩
    · intro obj has
      grind
    · intro obj other has hasOther apart
      grind
    · intro obj has _
      rw [address obj has]
      exact Nat.dvd_add ((divides obj has).trans multiple) (block obj has).multiple
  | false =>
    obtain ⟨next, multiple, low, high⟩ := based.below side
    have address (obj : α) (has : s.HasBlock obj) :=
      based.blockAddress_below layout side has
    rw [side] at block sized inside disjoint
    refine ⟨⟨low, by omega⟩, ⟨by omega, high⟩, .inr (by omega), ?_, ?_, ?_⟩
    · intro obj has
      grind
    · intro obj other has hasOther apart
      grind
    · intro obj has _
      have whole := (divides obj has).trans multiple
      rw [← address obj has] at whole
      exact (Nat.dvd_add_left (block obj has).multiple).mp whole

omit alloc based in
theorem Layout.tlsSound {later : State α} (layoutLater : Layout target later)
    (maximum : later.tlsMaxAlignment = s.tlsMaxAlignment)
    (limit : later.runtimeTlsMap.initialLimit = s.runtimeTlsMap.initialLimit) :
    TlsSound target s later := by
  intro allocation alloc
  obtain ⟨area, after, allocates, based⟩ := (layout.ends_allocateTcb alloc).run
  have size : later.allocSize target = s.allocSize target := by
    rw [State.allocSize, State.alignOverhead, maximum, limit, State.allocSize, State.alignOverhead]
  have basedLater : area.Based target later allocation := by
    refine ⟨based.tcb, ?_, ?_⟩ <;> rw [maximum, limit, size]
    · exact based.above
    · exact based.below
  exact ⟨area, after, allocates, basedLater.sound layoutLater (size ▸ alloc)⟩

end Sound

end Mlibc.Loader
