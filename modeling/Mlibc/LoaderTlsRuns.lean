import Mlibc.LoaderTcb
import Mlibc.TransitionSystem

/-! # The static TLS blocks after any sequence of links -/

namespace Mlibc.Loader

open TransitionSystem Option

variable {α : Type}

def linkSystem [DecidableEq α] [Fintype α] (target : Target) :
    TransitionSystem (State α) (Loader α × α) where
  initial s := s.runtimeTlsMap = {} ∧ s.tlsMaxAlignment = 16 ∧
    ∀ obj, (s.objects obj).tlsModel = .null
  step s label :=
    match linkObjects label.1 target.tlsAboveTp label.2 s with
    | .ok _ after => some after
    | .error _ _ => none

/-- The links from a state on. -/
def laterLinks [DecidableEq α] [Fintype α] (target : Target) (first : State α) :
    TransitionSystem (State α) (Loader α × α) :=
  { linkSystem target with initial := (· = first) }

theorem Layout.start [Fintype α] (target : Target) {s : State α}
    (map : s.runtimeTlsMap = {}) (maximum : s.tlsMaxAlignment = 16)
    (unplaced : ∀ obj, (s.objects obj).tlsModel = .null) : Layout target s := by
  have small := target.small
  refine ⟨Placed.start target.tlsAboveTp ?_ ?_, ?_, ?_, ?_, ?_⟩
  · intro obj has
    rw [State.HasBlock, unplaced obj] at has
    cases has
  · rw [map]
  · rw [map]
  · rw [maximum]
    decide
  · rw [maximum]
    exact Nat.le_add_right _ _
  · rw [map, maximum]
    change 0 + _ + _ + 16 < _
    omega

theorem Layout.link [DecidableEq α] [Fintype α] {target : Target} {s next : State α}
    {label : Loader α × α} (layout : Layout target s)
    (keeps : KeepsLayout target s label.1 label.2)
    (steps : (linkSystem target).step s label = some next) :
    Layout target next ∧ s.KeepsArea next := by
  have ends := linkObjects_layout layout keeps
  unfold Ends at ends
  simp only [linkSystem] at steps
  cases ran : linkObjects label.1 target.tlsAboveTp label.2 s with
  | ok linkBfs after =>
    rw [ran] at ends steps
    cases steps
    exact ends
  | error fault after =>
    rw [ran] at steps
    cases steps

/-- In every run whose links keep the layout, the static TLS blocks are disjoint, inside of the area
and aligned in every TCB, also in those that were allocated before later links. -/
theorem static_tls_sound [DecidableEq α] [Fintype α] (target : Target) {s : State α}
    (reach : (linkSystem target).ReachableVia
      (fun s label => KeepsLayout target s label.1 label.2) s) :
    TlsSound target s s ∧ (s.runtimeTlsMap.initialLimit ≠ 0 → ∀ later,
      (laterLinks target s).ReachableVia
        (fun s label => KeepsLayout target s label.1 label.2) later → TlsSound target s later) := by
  have layout : Layout target s := by
    apply reach.invariant
    · intro s starts
      exact Layout.start target starts.1 starts.2.1 starts.2.2
    · intro s label next layout keeps steps
      exact (layout.link keeps steps).1
  refine ⟨layout.tlsSound layout rfl rfl, fun started later reachLater => ?_⟩
  have kept : Layout target later ∧ later.tlsMaxAlignment = s.tlsMaxAlignment ∧
      later.runtimeTlsMap.initialLimit = s.runtimeTlsMap.initialLimit := by
    apply reachLater.invariant
    · rintro _ rfl
      exact ⟨layout, rfl, rfl⟩
    · rintro current label next ⟨layout, maximum, limit⟩ keeps steps
      obtain ⟨layoutNext, keepsArea⟩ := layout.link keeps steps
      obtain ⟨sameMaximum, sameLimit⟩ := keepsArea (limit ▸ started)
      exact ⟨layoutNext, sameMaximum.trans maximum, sameLimit.trans limit⟩
  exact layout.tlsSound kept.1 kept.2.1 kept.2.2

def exampleTarget (above : Bool) : Target where
  tlsAboveTp := above
  sizeofTcb := 256
  alignofTcb := 8
  aligned := by decide
  multiple := by decide
  small := by decide

local instance threeObjects : NeZero 3 := ⟨by decide⟩

/-- A program, a library that it needs and a library that is opened later. -/
def tlsObjects (segments : Fin 3 → BitVec 64 × BitVec 64) : State (Fin 3) where
  objects obj :=
    { dependencies := if obj = 0 then [1] else []
      isMainObject := obj = 0
      objectRts := if obj = 2 then 2 else 1
      dynamic := true
      tlsSegmentSize := (segments obj).1
      tlsAlignment := (segments obj).2
      haveStaticTls := true }
  scopes _ := { isGlobal := true }

def initialLoader : Loader (Fin 3) := ⟨some 0, 0, true, 1⟩

def KeepsAll (target : Target) (s : State (Fin 3)) (label : Loader (Fin 3) × Fin 3) : Prop :=
  (∀ obj, (s.objects obj).tlsAlignment &&&
    ((s.objects obj).tlsAlignment - 1) = 0) ∧
  2 * s.tlsTotal + 80 + target.sizeofTcb.toNat + target.alignofTcb.toNat < 2 ^ 64 ∧
  ∀ obj, (s.objects obj).tlsModel = .null →
    (s.objects obj).tlsAlignment ≠ 0 ∧ (label.1.isInitialLink = false →
      (s.objects obj).tlsAlignment.toNat ≤ s.tlsMaxAlignment.toNat)

instance (target : Target) (s : State (Fin 3)) : DecidablePred (KeepsAll target s) :=
  fun _ => inferInstanceAs (Decidable (_ ∧ _ ∧ _))

def alignedSegments : Fin 3 → BitVec 64 × BitVec 64
  | 0 => (24, 8)
  | 1 => (100, 64)
  | 2 => (8, 16)

/-- The TCB is allocated before the library is opened. -/
theorem static_tls_sound_alignedSegments :
    ∃ first s : State (Fin 3), ¬ first.HasBlock 2 ∧ (∀ obj, s.HasBlock obj) ∧
      TlsSound (exampleTarget false) first s := by
  have observed : ∃ first ∈ (linkSystem (exampleTarget false)).run
      (KeepsAll (exampleTarget false)) (tlsObjects alignedSegments) [(initialLoader, 0)],
      ¬ first.HasBlock 2 ∧ first.runtimeTlsMap.initialLimit ≠ 0 ∧
      ∃ s ∈ (laterLinks (exampleTarget false) first).run (KeepsAll (exampleTarget false)) first
        [(libraryLoader, 2)], ∀ obj, s.HasBlock obj := by
    decide +kernel
  obtain ⟨first, reach, missing, started, observedLater⟩ :=
    exists_reachable observed ⟨rfl, rfl, fun _ => rfl⟩
  obtain ⟨s, reachLater, placed⟩ := exists_reachable observedLater rfl
  have keeps : ∀ s label, KeepsAll (exampleTarget false) s label →
      KeepsLayout (exampleTarget false) s label.1 label.2 := by
    intro s label all
    refine ⟨all.1, all.2.1, ?_⟩
    intro obj _ null _ _
    exact all.2.2 obj null
  exact ⟨first, s, missing, placed, (static_tls_sound (exampleTarget false)
    (reach.mono keeps)).2 started s (reachLater.mono keeps)⟩

def blockAddresses (target : Target) (allocation : BitVec 64) (s : State (Fin 3)) :
    Option (Fin 3 → BitVec 64) :=
  match allocateTcb target allocation s with
  | .ok area _ => some fun obj => area.blockAddress target (s.objects obj)
  | .error _ _ => none

theorem TlsSound.blockAddresses {target : Target} {s : State (Fin 3)}
    (sound : TlsSound target s s) {allocation : BitVec 64}
    (alloc : allocation.toNat + (s.allocSize target).toNat ≤ 2 ^ 64) :
    ∃ area : TcbArea, area.Sound target s allocation ∧ blockAddresses target allocation s =
        some fun obj => area.blockAddress target (s.objects obj) := by
  obtain ⟨area, after, allocates, areaSound⟩ := sound allocation alloc
  refine ⟨area, areaSound, ?_⟩
  rw [Loader.blockAddresses, allocates]

def laterAlignment : Fin 3 → BitVec 64 × BitVec 64
  | 0 => (0, 0)
  | 1 => (0, 0)
  | 2 => (8, 64)

def zeroAlignment : Fin 3 → BitVec 64 × BitVec 64
  | 0 => (8, 8)
  | 1 => (8, 0)
  | 2 => (0, 0)

/-- A later library with a larger alignment, and a segment with the alignment zero. -/
theorem static_tls_misplaced :
    (∃ s : State (Fin 3), (linkSystem (exampleTarget false)).Reachable s ∧
        ¬ TlsSound (exampleTarget false) s s) ∧
      ∃ s : State (Fin 3), (linkSystem (exampleTarget true)).Reachable s ∧
        ¬ TlsSound (exampleTarget true) s s := by
  constructor
  · have observed : ∃ s ∈ (linkSystem (exampleTarget false)).run (fun _ _ => True)
        (tlsObjects laterAlignment) [(initialLoader, 0), (libraryLoader, 2)],
        s.HasBlock 2 ∧ (s.objects 2).tlsAlignment = 64 ∧
          (s.allocSize (exampleTarget false)).toNat = 336 ∧
          (blockAddresses (exampleTarget false) 0x1010 s).map (· 2) = some 0x1010 := by
      decide +kernel
    obtain ⟨s, reach, placed, align, size, address⟩ :=
      exists_reachable observed ⟨rfl, rfl, fun _ => rfl⟩
    refine ⟨s, reach, ?_⟩
    intro sound
    obtain ⟨area, areaSound, addresses⟩ := sound.blockAddresses
      (by rw [size]; decide : (0x1010 : BitVec 64).toNat + _ ≤ _)
    rw [addresses] at address
    have address : area.blockAddress (exampleTarget false) (s.objects 2) = 0x1010 :=
      some.inj address
    have aligned := areaSound.aligned 2 placed (by rw [align]; decide)
    rw [address, align] at aligned
    exact absurd aligned (by decide)
  have observed : ∃ s ∈ (linkSystem (exampleTarget true)).run (fun _ _ => True)
      (tlsObjects zeroAlignment) [(initialLoader, 0)],
      s.HasBlock 0 ∧ s.HasBlock 1 ∧ (s.objects 0).tlsSegmentSize = 8 ∧
        (s.objects 1).tlsSegmentSize = 8 ∧ (s.allocSize (exampleTarget true)).toNat = 344 ∧
        (blockAddresses (exampleTarget true) 0x1000 s).map (· 0) = some 0x1100 ∧
        (blockAddresses (exampleTarget true) 0x1000 s).map (· 1) = some 0x1100 := by
    decide +kernel
  obtain ⟨s, reach, hasFirst, hasSecond, firstSize, secondSize, size, first, second⟩ :=
    exists_reachable observed ⟨rfl, rfl, fun _ => rfl⟩
  refine ⟨s, reach, ?_⟩
  intro sound
  obtain ⟨area, areaSound, addresses⟩ := sound.blockAddresses
    (by rw [size]; decide : (0x1000 : BitVec 64).toNat + _ ≤ _)
  rw [addresses] at first second
  have first : area.blockAddress (exampleTarget true) (s.objects 0) = 0x1100 :=
    some.inj first
  have second : area.blockAddress (exampleTarget true) (s.objects 1) = 0x1100 :=
    some.inj second
  have disjoint := areaSound.disjoint 0 1 hasFirst hasSecond (by decide)
  rw [first, second, firstSize, secondSize] at disjoint
  exact absurd disjoint (by decide)

end Mlibc.Loader
