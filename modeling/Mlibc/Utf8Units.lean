import Mlibc.Charcode

/-! # UTF-8 units as numbers -/

namespace Mlibc

open List

/-! ### Bit masks as numeric ranges -/

section

variable (uc : UInt8)

include uc

/-- A mask of the bits from `width` on tests for one block of `2 ^ width` numbers. -/
private theorem mask_iff (width block : Nat) {mask lead : UInt8}
    (maskValue : mask.toNat = (2 ^ (8 - width) - 1) <<< width)
    (leadValue : lead.toNat = block <<< width) :
    uc &&& mask = lead ↔ uc.toNat / 2 ^ width = block := by
  have masked : uc.toNat &&& mask.toNat = uc.toNat >>> width <<< width := by
    rw [maskValue]
    apply Nat.eq_of_testBit_eq
    intro i
    simp only [Nat.testBit_shiftLeft, Nat.testBit_shiftRight]
    by_cases high : width ≤ i
    · rw [Nat.add_sub_cancel' high]
      by_cases inside : i < 8
      · simp [high, show i - width < 8 - width by omega]
      · have absent : uc.toNat.testBit i = false :=
          Nat.testBit_lt_two_pow (uc.toNat_lt.trans_le (Nat.pow_le_pow_right (by decide)
          (by omega)))
        simp [absent]
    · simp [high]
  rw [← UInt8.toNat_inj, UInt8.toNat_and, masked, leadValue, Nat.shiftRight_eq_div_pow]
  simp [Nat.shiftLeft_eq]

private theorem mask_ascii :
    uc &&& 0b10000000 = 0 ↔ uc.toNat < 0x80 := by
  rw [mask_iff uc 7 0 rfl rfl]
  omega

private theorem mask_lead2 :
    uc &&& 0b11100000 = 0b11000000 ↔ 0xC0 ≤ uc.toNat ∧ uc.toNat < 0xE0 := by
  rw [mask_iff uc 5 6 rfl rfl]
  omega

private theorem mask_lead3 :
    uc &&& 0b11110000 = 0b11100000 ↔ 0xE0 ≤ uc.toNat ∧ uc.toNat < 0xF0 := by
  rw [mask_iff uc 4 14 rfl rfl]
  omega

private theorem mask_lead4 :
    uc &&& 0b11111000 = 0b11110000 ↔ 0xF0 ≤ uc.toNat ∧ uc.toNat < 0xF8 := by
  rw [mask_iff uc 3 30 rfl rfl]
  omega

private theorem mask_cont :
    uc &&& 0b11000000 = 0b10000000 ↔ 0x80 ≤ uc.toNat ∧ uc.toNat < 0xC0 := by
  rw [mask_iff uc 6 2 rfl rfl]
  omega

private theorem mask_invalid :
    uc &&& 0b11111000 = 0b11111000 ↔ 0xF8 ≤ uc.toNat := by
  have byte := uc.toNat_lt
  rw [mask_iff uc 3 31 rfl rfl]
  omega

private theorem toNat_payload (width : Nat) (mask : UInt8)
    (maskValue : mask.toNat = 2 ^ width - 1) :
    (uc &&& mask).toUInt32.toNat = uc.toNat % 2 ^ width := by
  simp [maskValue]

private theorem toNat_payloads :
    uc.toUInt32.toNat = uc.toNat ∧ (uc &&& 0b11111).toUInt32.toNat = uc.toNat % 32 ∧
      (uc &&& 0b1111).toUInt32.toNat = uc.toNat % 16 ∧
      (uc &&& 0b111).toUInt32.toNat = uc.toNat % 8 :=
  ⟨UInt8.toNat_toUInt32 uc, toNat_payload uc 5 _ rfl, toNat_payload uc 4 _ rfl,
    toNat_payload uc 3 _ rfl⟩

end

private theorem toNat_append_payload (cpoint : UInt32) (uc : UInt8)
    (bound : cpoint.toNat < 2 ^ 26) :
    ((cpoint <<< 6) ||| (uc &&& 0x3F).toUInt32).toNat = cpoint.toNat * 64 + uc.toNat % 64 := by
  have payload : (uc &&& 0x3F).toUInt32.toNat = uc.toNat % 2 ^ 6 := toNat_payload uc 6 0x3F rfl
  have shifted : (cpoint <<< 6).toNat = cpoint.toNat <<< 6 := by
    change cpoint.toNat <<< 6 % 2 ^ 32 = cpoint.toNat <<< 6
    exact Nat.mod_eq_of_lt (by omega)
  rw [UInt32.toNat_or, shifted, payload,
    ← Nat.shiftLeft_add_eq_or_of_lt (Nat.mod_lt _ (by decide)), Nat.shiftLeft_eq]

private theorem toNat_shiftRight (wc shift : UInt32) :
    (wc >>> shift).toNat = wc.toNat / 2 ^ (shift.toNat % 32) := by
  rw [UInt32.toNat_shiftRight, Nat.shiftRight_eq_div_pow]

/-- A unit is its marker plus the bits below the marker. -/
private theorem toNat_marked (marker value : UInt32) (width block : Nat)
    (isMarker : marker.toNat = block <<< width) (room : marker.toNat + 2 ^ width ≤ 256)
    (below : value.toNat < 2 ^ width) :
    (marker ||| value).toUInt8.toNat = marker.toNat + value.toNat := by
  rw [UInt32.toNat_toUInt8, UInt32.toNat_or, isMarker, ← Nat.shiftLeft_add_eq_or_of_lt below]
  exact Nat.mod_eq_of_lt (by omega)

private theorem toNat_utf8Cont (val : UInt32) :
    (utf8Cont val).toNat = 0x80 + val.toNat % 64 := by
  have low : (val &&& 0x3F).toNat = val.toNat % 64 := by
    exact Nat.and_two_pow_sub_one_eq_mod val.toNat 6
  rw [utf8Cont, toNat_marked 0x80 _ 6 2 rfl (by decide) (by omega), low]
  rfl

/-! ### The units of one character -/

/-- The units of a code point as numbers: the lead unit and then the continuation units. -/
inductive Utf8Form (wc : Nat) : List Nat → Prop where
  | one : wc ≤ 0x7F → Utf8Form wc [wc]
  | two : 0x7F < wc → wc ≤ 0x7FF → Utf8Form wc [0xC0 + wc / 64, 0x80 + wc % 64]
  | three : 0x7FF < wc → wc ≤ 0xFFFF →
      Utf8Form wc [0xE0 + wc / 4096, 0x80 + wc / 64 % 64, 0x80 + wc % 64]
  | four : 0xFFFF < wc → wc ≤ 0x10FFFF → Utf8Form wc [0xF0 + wc / 262144, 0x80 + wc / 4096 % 64,
        0x80 + wc / 64 % 64, 0x80 + wc % 64]

variable {wc : UInt32} {units : List UInt8}

theorem utf8Form_of_utf8Units (enc : utf8Units wc = some units) :
    Utf8Form wc.toNat (units.map UInt8.toNat) := by
  change (if wc.toNat ≤ 0x7F then _ else if wc.toNat ≤ 0x7FF then _
    else if wc.toNat ≤ 0xFFFF then _
    else if wc.toNat ≤ 0x10FFFF then _ else none) = _ at enc
  have six : (wc >>> 6).toNat = wc.toNat / 64 := toNat_shiftRight wc 6
  have twelve : (wc >>> 12).toNat = wc.toNat / 4096 := toNat_shiftRight wc 12
  have eighteen : (wc >>> 18).toNat = wc.toNat / 262144 := toNat_shiftRight wc 18
  split at enc
  · next bound =>
    cases enc
    have value : wc.toNat % 256 = wc.toNat := Nat.mod_eq_of_lt (by omega)
    simpa [value] using Utf8Form.one bound
  split at enc
  · next above bound =>
    cases enc
    have lead := toNat_marked 0xC0 (wc >>> 6) 5 6 rfl (by decide) (by omega)
    simpa only [map_cons, map_nil, lead, six, UInt32.reduceToNat,
      toNat_utf8Cont] using Utf8Form.two (by omega) bound
  split at enc
  · next above bound =>
    cases enc
    have lead := toNat_marked 0xE0 (wc >>> 12) 4 14 rfl (by decide) (by omega)
    simpa only [map_cons, map_nil, lead, twelve, UInt32.reduceToNat,
      toNat_utf8Cont, six] using Utf8Form.three (by omega) bound
  split at enc
  · next above bound =>
    cases enc
    have lead := toNat_marked 0xF0 (wc >>> 18) 3 30 rfl (by decide) (by omega)
    simpa only [map_cons, map_nil, lead, eighteen, UInt32.reduceToNat,
      toNat_utf8Cont, six, twelve] using
      Utf8Form.four (by omega) bound
  · cases enc

theorem utf8Units_eq_some (bound : wc.toNat ≤ 0x10FFFF) :
    ∃ units, utf8Units wc = some units := by
  have bound : wc ≤ 0x10FFFF := UInt32.le_iff_toNat_le.mpr bound
  unfold utf8Units
  split_ifs
  all_goals exact ⟨_, rfl⟩

theorem Utf8Form.unique {wc : Nat} {first second : List Nat} (firstForm : Utf8Form wc first)
    (secondForm : Utf8Form wc second) :
    first = second := by
  cases firstForm <;> cases secondForm <;> first | rfl | omega

theorem Utf8Form.bound {wc : Nat} {units : List Nat} (form : Utf8Form wc units) :
    wc ≤ 0x10FFFF := by
  cases form <;> omega

theorem utf8Units_of_form (form : Utf8Form wc.toNat (units.map UInt8.toNat)) :
    utf8Units wc = some units := by
  obtain ⟨enc, encodes⟩ := utf8Units_eq_some form.bound
  have equal := (utf8Form_of_utf8Units encodes).unique form
  have injective : Function.Injective UInt8.toNat := fun _ _ => UInt8.toNat_inj.mp
  rw [encodes, map_injective_iff.mpr injective equal]

theorem utf8Units_ne_nil (enc : utf8Units wc = some units) : units ≠ [] := by
  rintro rfl
  cases utf8Form_of_utf8Units enc

/-! ### The decoder, unit by unit -/

def IsSurrogate (wc : UInt32) : Prop := 0xD800 ≤ wc ∧ wc ≤ 0xDFFF

instance (wc : UInt32) : Decidable (IsSurrogate wc) :=
  inferInstanceAs (Decidable (_ ∧ _))

theorem isSurrogate_iff (wc : UInt32) :
    IsSurrogate wc ↔ 0xD800 ≤ wc.toNat ∧ wc.toNat ≤ 0xDFFF := by
  rfl

/-- The units are the well-formed sequence of a scalar value: the shortest form, and no
surrogate. -/
def IsCharacter (wc : UInt32) (units : List UInt8) : Prop :=
  Utf8Form wc.toNat (units.map UInt8.toNat) ∧ ¬ IsSurrogate wc

/-- The units of a code point behind the one that holds its bits from `6 * later` on. -/
def continuations (wc : Nat) : Nat → List Nat
  | 0 => []
  | later + 1 => (0x80 + wc / 64 ^ later % 64) :: continuations wc later

namespace Utf8DecodeState

theorem decodeUnit_first (cpoint : UInt32) (uc : UInt8) :
    decodeUnit ⟨0, cpoint⟩ uc =
      if uc.toNat < 0x80 then some (.inputExhausted, ⟨0, uc.toUInt32⟩)
      else if uc.toNat < 0xC2 then some (.illegalInput, ⟨0, cpoint⟩)
      else if uc.toNat < 0xE0 then
        some (.inputExhausted, ⟨1, (uc &&& 0b11111).toUInt32⟩)
      else if uc.toNat < 0xF0 then
        some (.inputExhausted, ⟨2, (uc &&& 0b1111).toUInt32⟩)
      else if uc.toNat < 0xF5 then
        some (.inputExhausted, ⟨3, (uc &&& 0b111).toUInt32⟩)
      else some (.illegalInput, ⟨0, cpoint⟩) := by
  simp only [decodeUnit, mask_ascii, mask_lead2, mask_lead3, mask_lead4, mask_cont, mask_invalid]
  change (if uc.toNat < 0x80 then _ else if _ then if uc.toNat < 0xC2 then _ else _
    else if _ then _ else if _ then if 0xF5 ≤ uc.toNat then _ else _ else _) = _
  split_ifs <;> first | rfl | omega

/-- The units that the checks inside a sequence let pass. -/
def Allows (ds : Utf8DecodeState) (uc : UInt8) : Prop :=
  0x80 ≤ uc.toNat ∧ uc.toNat < 0xC0 ∧ (ds.progress = 2 → (ds.cpoint.toNat = 0 → 0xA0 ≤ uc.toNat) ∧
      (ds.cpoint.toNat = 0x0D → uc.toNat < 0xA0)) ∧
    (ds.progress = 3 → (ds.cpoint.toNat = 0 → 0x90 ≤ uc.toNat) ∧
      (ds.cpoint.toNat = 4 → uc.toNat < 0x90))

instance (ds : Utf8DecodeState) (uc : UInt8) : Decidable (ds.Allows uc) :=
  inferInstanceAs (Decidable (_ ∧ _))

theorem decodeUnit_next (progress : Nat) (cpoint : UInt32) (uc : UInt8) :
    decodeUnit ⟨progress + 1, cpoint⟩ uc =
      if Allows ⟨progress + 1, cpoint⟩ uc then
        some (.inputExhausted, ⟨progress, (cpoint <<< 6) ||| (uc &&& 0x3F).toUInt32⟩)
      else some (.illegalInput, ⟨progress + 1, cpoint⟩) := by
  have hex (value : UInt32) : cpoint = value ↔ cpoint.toNat = value.toNat := UInt32.toNat_inj.symm
  simp only [decodeUnit, mask_cont, hex]
  change (if _ then
    if progress + 1 = 2 ∧ cpoint.toNat = 0 ∧ uc.toNat < 0xA0 then _
    else if progress + 1 = 2 ∧ cpoint.toNat = 0x0D ∧ 0xA0 ≤ uc.toNat then _
    else if progress + 1 = 3 ∧ cpoint.toNat = 0 ∧ uc.toNat < 0x90 then _
    else if progress + 1 = 3 ∧ cpoint.toNat = 4 ∧ 0x90 ≤ uc.toNat then _
    else _ else _) = _
  by_cases allowed : Allows ⟨progress + 1, cpoint⟩ uc
  · rw [if_pos allowed]
    simp only [Allows] at allowed
    split_ifs <;> first | rfl | omega
  · rw [if_neg allowed]
    simp only [Allows] at allowed
    split_ifs <;> first | rfl | omega

theorem decodeUnit_total (ds : Utf8DecodeState) (uc : UInt8) :
    (∃ next, ds.decodeUnit uc = some (.illegalInput, next)) ∨
      ∃ next, ds.decodeUnit uc = some (.inputExhausted, next) := by
  obtain ⟨progress, cpoint⟩ := ds
  cases progress with
  | zero =>
    rw [decodeUnit_first]
    split_ifs <;> simp
  | succ progress =>
    rw [decodeUnit_next]
    split_ifs <;> simp

/-! ### The code points that a state can still reach -/

/-- The decoder is on its way to the code point: it has the bits of the units so far. -/
def Toward (ds : Utf8DecodeState) (wc : Nat) : Prop :=
  ds.cpoint.toNat = wc / 64 ^ ds.progress ∧
    (2 ≤ ds.progress → 0x7FF < wc ∧ ¬ (0xD800 ≤ wc ∧ wc ≤ 0xDFFF)) ∧
    (3 ≤ ds.progress → 0xFFFF < wc ∧ wc ≤ 0x10FFFF)

/-- The units end the sequence of the code point. -/
def Completes (ds : Utf8DecodeState) (units : List UInt8) (wc : UInt32) : Prop :=
  units.map UInt8.toNat = continuations wc.toNat ds.progress ∧ ds.Toward wc.toNat

def Inside (ds : Utf8DecodeState) : Prop :=
  ds.progress ≤ 3 ∧ (ds.progress ≠ 0 → ds.cpoint.toNat * 64 ^ ds.progress < 5 * 64 ^ 3)

theorem inside_start (cpoint : UInt32) : Inside ⟨0, cpoint⟩ := ⟨Nat.zero_le 3, by simp⟩

variable {cpoint : UInt32}

theorem completes_end {wc : UInt32} {units : List UInt8} :
    Completes ⟨0, cpoint⟩ units wc ↔ units = [] ∧ cpoint = wc := by
  simp [Completes, Toward, continuations, UInt32.toNat_inj]

theorem Inside.bound {progress : Nat} (inside : Inside ⟨progress + 1, cpoint⟩) :
    cpoint.toNat < 2 ^ 26 := by
  have power : 0 < 64 ^ (progress + 1) := Nat.pow_pos (by decide)
  exact (Nat.le_mul_of_pos_right _ power).trans_lt ((inside.2 (Nat.succ_ne_zero _)).trans
    (by decide))

theorem completes_cons {progress : Nat} (inside : Inside ⟨progress + 1, cpoint⟩) (uc : UInt8)
    (units : List UInt8) (wc : UInt32) :
    Completes ⟨progress + 1, cpoint⟩ (uc :: units) wc ↔
      ∃ next, decodeUnit ⟨progress + 1, cpoint⟩ uc = some (.inputExhausted, next) ∧
        Completes next units wc := by
  have value := toNat_append_payload cpoint uc inside.bound
  generalize appended : (cpoint <<< 6) ||| (uc &&& 0x3F).toUInt32 = next at value
  have next_iff : Completes ⟨progress + 1, cpoint⟩ (uc :: units) wc ↔
      Allows ⟨progress + 1, cpoint⟩ uc ∧ Completes ⟨progress, next⟩ units wc := by
    simp only [Completes, continuations, map_cons, cons.injEq, Toward, Allows, Inside] at inside ⊢
    by_cases tail : units.map UInt8.toNat = continuations wc.toNat progress
    · simp only [tail, and_true, true_and]
      obtain rfl | rfl | rfl : progress = 0 ∨ progress = 1 ∨ progress = 2 := by omega
      all_goals omega
    · simp only [tail, false_and, and_false]
  rw [next_iff, decodeUnit_next, appended]
  split_ifs with allowed <;> simp [allowed]

variable {ds : Utf8DecodeState}

theorem Inside.next {next : Utf8DecodeState} {uc : UInt8} (inside : ds.Inside)
    (dec : ds.decodeUnit uc = some (.inputExhausted, next)) : next.Inside := by
  obtain ⟨progress, cpoint⟩ := ds
  cases progress with
  | zero =>
    have payloads := toNat_payloads uc
    rw [decodeUnit_first] at dec
    split_ifs at dec <;> cases dec
    all_goals
      simp only [Inside]
      omega
  | succ progress =>
    have value := toNat_append_payload cpoint uc inside.bound
    rw [decodeUnit_next] at dec
    split_ifs at dec <;> cases dec
    obtain ⟨three, small⟩ := inside
    simp only [Inside] at three small ⊢
    obtain rfl | rfl | rfl : progress = 0 ∨ progress = 1 ∨ progress = 2 := by omega
    all_goals omega

theorem utf8Form_cons {wc lead : Nat} {tail : List Nat} :
    Utf8Form wc (lead :: tail) ↔ (tail = continuations wc 0 ∧ lead = wc ∧ wc ≤ 0x7F) ∨
      (tail = continuations wc 1 ∧ lead = 0xC0 + wc / 64 ∧ 0x7F < wc ∧ wc ≤ 0x7FF) ∨
      (tail = continuations wc 2 ∧ lead = 0xE0 + wc / 4096 ∧ 0x7FF < wc ∧ wc ≤ 0xFFFF) ∨
      (tail = continuations wc 3 ∧ lead = 0xF0 + wc / 262144 ∧ 0xFFFF < wc ∧ wc ≤ 0x10FFFF) := by
  simp only [continuations, pow_zero, Nat.div_one]
  constructor
  · rintro (bound | ⟨above, bound⟩ | ⟨above, bound⟩ | ⟨above, bound⟩)
    all_goals simp [*]
  · rintro (⟨rfl, rfl, bound⟩ | ⟨rfl, rfl, above, bound⟩ | ⟨rfl, rfl, above, bound⟩ |
      ⟨rfl, rfl, above, bound⟩)
    · exact .one bound
    · exact .two above bound
    · exact .three above bound
    · exact .four above bound

theorem isCharacter_cons (cpoint : UInt32) (lead : UInt8) (units : List UInt8) (wc : UInt32) :
    IsCharacter wc (lead :: units) ↔
      ∃ next, decodeUnit ⟨0, cpoint⟩ lead = some (.inputExhausted, next) ∧
        Completes next units wc := by
  have payloads := toNat_payloads lead
  rw [IsCharacter, map_cons, utf8Form_cons, isSurrogate_iff, decodeUnit_first]
  split_ifs
  all_goals
    simp only [Option.some.injEq, Prod.mk.injEq, reduceCtorEq, false_and, exists_false,
      true_and, exists_eq_left', Completes, Toward]
    constructor
    · rintro ⟨⟨tail, bounds⟩ | ⟨tail, bounds⟩ | ⟨tail, bounds⟩ | ⟨tail, bounds⟩, legal⟩
      all_goals first | omega | exact ⟨tail, by omega⟩
    · rintro ⟨tail, toward⟩ <;> (simp only [tail, true_and]; omega)

/-- The units of one character, from its start or from within it. -/
def Reads (ds : Utf8DecodeState) (units : List UInt8) (wc : UInt32) : Prop :=
  if ds.progress = 0 then IsCharacter wc units else ds.Completes units wc

theorem not_reads_nil {wc : UInt32} : ¬ ds.Reads [] wc := by
  obtain ⟨_ | progress, cpoint⟩ := ds
  · exact fun reads => nomatch reads.1
  · exact fun reads => nomatch reads.1

/-- The decoder consumes a unit exactly when a character can go on with it. -/
theorem reads_cons (inside : ds.Inside) (uc : UInt8) (units : List UInt8) (wc : UInt32) :
    ds.Reads (uc :: units) wc ↔
      ∃ next, ds.decodeUnit uc = some (.inputExhausted, next) ∧ next.Completes units wc := by
  obtain ⟨_ | progress, cpoint⟩ := ds
  · exact isCharacter_cons cpoint uc units wc
  · exact completes_cons inside uc units wc

end Utf8DecodeState

end Mlibc
