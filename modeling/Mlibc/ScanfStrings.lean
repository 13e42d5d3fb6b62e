import Mlibc.ScanfDirectives

/-! # Conversions to strings -/

namespace Mlibc.Scanf

open IntegerText List

inductive Codeset where
  | ascii
  | utf8
  deriving DecidableEq

def Codeset.charcode : Codeset → CharcodeClass
  | .ascii => asciiCharcode
  | .utf8 => utf8Charcode

def charValue (signed : Bool) (b : UInt8) : Int :=
  if signed ∧ 128 ≤ b then (b.toNat : Int) - 256 else b.toNat

def latinUnits (b : UInt8) : List UInt8 :=
  if b < 128 then [b] else [(0xC0 : UInt8) ||| (b >>> 6), 0x80 ||| (b &&& 0x3F)]

def storedUnits (codeset : Codeset) (signed : Bool) (b : UInt8) : Option (List UInt8) :=
  if b < 128 then some [b]
  else if signed then none
  else
    match codeset with
    | .ascii => some [b]
    | .utf8 => some (latinUnits b)

variable {b : UInt8}

theorem charBytes_charValue (codeset : Codeset) (signed : Bool) (nz : b ≠ 0) :
    charBytes codeset.charcode (charValue signed b) = storedUnits codeset signed b := by
  have all : ∀ n : Fin 256, UInt8.ofFin n ≠ 0 →
      charBytes codeset.charcode (charValue signed (UInt8.ofFin n)) =
        storedUnits codeset signed (UInt8.ofFin n) := by
    cases codeset <;> cases signed <;> decide +kernel
  exact all b.toFin nz

theorem storedUnits_ascii (codeset : Codeset) (signed : Bool) (ascii : b < 128) :
    storedUnits codeset signed b = some [b] :=
  if_pos ascii

theorem storedUnits_signed (codeset : Codeset) (notAscii : ¬b < 128) :
    storedUnits codeset true b = none :=
  if_neg notAscii

theorem storedUnits_unsigned (b : UInt8) : storedUnits .ascii false b = some [b] := by
  simp only [storedUnits, Bool.false_eq_true, if_false]
  split_ifs <;> rfl

theorem storedUnits_latin (b : UInt8) : storedUnits .utf8 false b = some (latinUnits b) := by
  simp only [storedUnits, latinUnits, Bool.false_eq_true, if_false]
  split_ifs <;> rfl

def acceptedRun (acc : Int → Bool) (signed : Bool) (bytes : List UInt8) : List UInt8 :=
  bytes.takeWhile fun b => acc (charValue signed b)

def latinText (bytes : List UInt8) : List UInt8 := bytes.flatMap latinUnits

theorem latinText_append (front back : List UInt8) :
    latinText (front ++ back) = latinText front ++ latinText back :=
  flatMap_append

theorem latinText_cons (b : UInt8) (bytes : List UInt8) :
    latinText (b :: bytes) = latinUnits b ++ latinText bytes :=
  flatMap_cons

/-- The encoding of `k` bytes of the run is the first one that reaches the limit, or they are all
bytes of the run. -/
def ReachesAt (limit count : Nat) (run : List UInt8) (k : Nat) : Prop :=
  k ≤ run.length ∧ (k = run.length ∨ limit ≤ count + (latinText (run.take k)).length) ∧
    ∀ j < k, count + (latinText (run.take j)).length < limit

variable {codeset : Codeset} {signed : Bool} {acc : Int → Bool} {limit count : Nat}

theorem readBytes_stop {c : Int} {text : List Int} (stops : acc c = false ∨ limit ≤ count) :
    readBytes codeset.charcode acc (some limit) count (c :: text) = some ([], c :: text) := by
  rw [readBytes, if_pos]
  simpa using stops

theorem readBytes_cons {text : List Int} (nz : b ≠ 0)
    (accepts : acc (charValue signed b) = true) (inside : count < limit) :
    readBytes codeset.charcode acc (some limit) count (charValue signed b :: text) =
      match storedUnits codeset signed b with
      | none => none
      | some bytes =>
        match readBytes codeset.charcode acc (some limit) (count + bytes.length) text with
        | none => none
        | some (more, rest) => some (bytes ++ more, rest) := by
  have goesOn : ¬(acc (charValue signed b) = false ∨ ∃ most ∈ some limit, most ≤ count) := by
    simp only [accepts]
    simpa using inside
  rewrite [readBytes, if_neg goesOn, charBytes_charValue codeset signed nz]
  rfl

theorem acceptedRun_cons (accepts : acc (charValue signed b) = true) (bytes : List UInt8) :
    acceptedRun acc signed (b :: bytes) = b :: acceptedRun acc signed bytes :=
  takeWhile_cons_of_pos (p := fun b => acc (charValue signed b)) accepts

theorem acceptedRun_stop (rejects : acc (charValue signed b) ≠ true)
    (bytes : List UInt8) : acceptedRun acc signed (b :: bytes) = [] :=
  takeWhile_cons_of_neg (p := fun b => acc (charValue signed b)) rejects

def storeRun (stored : UInt8 → Option (List UInt8)) (limit : Nat) :
    Nat → List UInt8 → Option (List UInt8)
  | _, [] => some []
  | count, b :: run =>
    if limit ≤ count then some []
    else
      (stored b).bind fun units =>
        (storeRun stored limit (count + units.length) run).map (units ++ ·)

theorem readBytes_eq {bytes : List UInt8} (nz : ∀ b ∈ bytes, b ≠ 0) (count : Nat) :
    (readBytes codeset.charcode acc (some limit) count (bytes.map (charValue signed))).map
        Prod.fst =
      storeRun (storedUnits codeset signed) limit count (acceptedRun acc signed bytes) := by
  induction bytes generalizing count with
  | nil => rfl
  | cons b bytes ih =>
    rw [map_cons]
    by_cases accepts : acc (charValue signed b) = true
    · rw [acceptedRun_cons accepts, storeRun]
      split_ifs with full
      · rw [readBytes_stop (.inr full)]
        rfl
      rw [readBytes_cons (nz b mem_cons_self) accepts (not_le.mp full)]
      cases storedUnits codeset signed b with
      | none => rfl
      | some units =>
        rw [Option.bind_some, ← ih fun c mem => nz c (mem_cons_of_mem b mem)]
        dsimp only
        cases readBytes codeset.charcode acc (some limit) (count + units.length) _ <;> rfl
    · rw [acceptedRun_stop accepts, readBytes_stop (.inl (Bool.eq_false_iff.mpr accepts))]
      rfl

variable {stored : UInt8 → Option (List UInt8)} {run : List UInt8}

theorem storeRun_of_same (same : ∀ b ∈ run.take (limit - count), stored b = some [b]) :
    storeRun stored limit count run = some (run.take (limit - count)) := by
  induction run generalizing count with
  | nil =>
    rw [take_nil]
    rfl
  | cons b run ih =>
    rw [storeRun]
    split_ifs with full
    · rw [Nat.sub_eq_zero_of_le full, take_zero]
    have left : limit - count = limit - (count + 1) + 1 := by omega
    rw [left] at same ⊢
    rw [same b mem_cons_self, Option.bind_some, length_singleton,
      ih fun c mem => same c (mem_cons_of_mem b mem)]
    rfl

theorem storeRun_signed (mem : b ∈ run.take (limit - count)) (notAscii : ¬b < 128) :
    storeRun (storedUnits codeset true) limit count run = none := by
  induction run generalizing count with
  | nil =>
    rw [take_nil] at mem
    cases mem
  | cons c run ih =>
    rw [storeRun]
    split_ifs with full
    · rw [Nat.sub_eq_zero_of_le full] at mem
      cases mem
    by_cases ascii : c < 128
    · have left : limit - count = limit - (count + 1) + 1 := by omega
      rw [left, take_succ_cons, mem_cons] at mem
      have later := mem.resolve_left fun isFirst => notAscii (isFirst ▸ ascii)
      rw [storedUnits_ascii codeset true ascii, Option.bind_some, length_singleton, ih later]
      rfl
    · rw [storedUnits_signed codeset ascii]
      rfl

theorem reachesAt_zero (stops : run = [] ∨ limit ≤ count) : ReachesAt limit count run 0 := by
  refine ⟨Nat.zero_le _, ?_, fun j impossible => absurd impossible (Nat.not_lt_zero j)⟩
  cases stops with
  | inl empty => exact .inl (by rw [empty]; rfl)
  | inr full => exact .inr full

theorem reachesAt_succ {k : Nat} (inside : count < limit)
    (reaches : ReachesAt limit (count + (latinUnits b).length) run k) :
    ReachesAt limit count (b :: run) (k + 1) := by
  have length_cons (j : Nat) : (latinText ((b :: run).take (j + 1))).length =
      (latinUnits b).length + (latinText (run.take j)).length := by
    rw [take_succ_cons, latinText_cons, length_append]
  obtain ⟨kLe, reached, before⟩ := reaches
  refine ⟨Nat.succ_le_succ kLe, ?_, ?_⟩
  · cases reached with
    | inl all => exact .inl (congrArg (· + 1) all)
    | inr full =>
      rw [length_cons]
      omega
  intro j jLt
  cases j with
  | zero => exact inside
  | succ j =>
    have lower := before j (Nat.lt_of_succ_lt_succ jLt)
    rw [length_cons]
    omega

theorem storeRun_latin (count : Nat) (run : List UInt8) : ∃ k, ReachesAt limit count run k ∧
      storeRun (storedUnits .utf8 false) limit count run = some (latinText (run.take k)) := by
  induction run generalizing count with
  | nil => exact ⟨0, reachesAt_zero (.inl rfl), rfl⟩
  | cons b run ih =>
    rw [storeRun]
    split_ifs with full
    · exact ⟨0, reachesAt_zero (.inr full), rfl⟩
    obtain ⟨k, reaches, stores⟩ := ih (count + (latinUnits b).length)
    refine ⟨k + 1, reachesAt_succ (not_le.mp full) reaches, ?_⟩
    rw [storedUnits_latin, Option.bind_some, stores]
    rfl

theorem length_le_latinText (bytes : List UInt8) : bytes.length ≤ (latinText bytes).length := by
  induction bytes with
  | nil => exact le_rfl
  | cons b bytes ih =>
    have pos : 1 ≤ (latinUnits b).length := by
      unfold latinUnits
      split_ifs <;> simp
    rw [latinText_cons, length_append, length_cons]
    omega

theorem ascii_of_length {bytes : List UInt8}
    (same : (latinText bytes).length ≤ bytes.length) : ∀ b ∈ bytes, b < 128 := by
  induction bytes with
  | nil =>
    intro b mem
    cases mem
  | cons c bytes ih =>
    rw [latinText_cons, length_append, length_cons] at same
    have longer := length_le_latinText bytes
    by_cases ascii : c < 128
    · have one : (latinUnits c).length = 1 := by rw [latinUnits, if_pos ascii]; rfl
      intro b mem
      cases mem_cons.mp mem with
      | inl isFirst => exact isFirst ▸ ascii
      | inr later => exact ih (by omega) b later
    · have two : (latinUnits c).length = 2 := by rw [latinUnits, if_neg ascii]; rfl
      omega

theorem latinText_take_lt {j k : Nat} (less : j < k) (kLe : k ≤ run.length) :
    (latinText (run.take j)).length < (latinText (run.take k)).length := by
  have split : run.take k = run.take j ++ (run.take k).drop j := by
    conv_lhs => rw [← take_append_drop j (run.take k)]
    rw [take_take, Nat.min_eq_left less.le]
  have longer := length_le_latinText ((run.take k).drop j)
  rw [length_drop, length_take] at longer
  rw [split, latinText_append, length_append]
  omega

theorem ReachesAt.unique {j k : Nat}
    (first : ReachesAt limit count run j) (second : ReachesAt limit count run k) : j = k := by
  have notLess {j k : Nat} (first : ReachesAt limit count run j)
      (second : ReachesAt limit count run k) : ¬j < k := by
    intro less
    have below := second.2.2 j less
    obtain all | full := first.2.1
    · have kLe := second.1
      omega
    · omega
  exact Nat.le_antisymm (not_lt.mp (notLess second first)) (not_lt.mp (notLess first second))

variable {k : Nat}

theorem of_latinText_eq (reaches : ReachesAt limit 0 run k)
    (same : latinText (run.take k) = run.take limit) :
    (∀ b ∈ run.take limit, b < 128) ∨ ((run.take limit).length = limit ∧
        ∃ k, run.take limit = latinText ((run.take limit).take k)) := by
  have longer := length_le_latinText (run.take k)
  rw [same, length_take, Nat.min_eq_left reaches.1, length_take] at longer
  have within : (run.take limit).take k = run.take k := by
    rw [take_take, Nat.min_eq_left (longer.trans (Nat.min_le_left _ _))]
  by_cases fills : (run.take limit).length = limit
  · exact .inr ⟨fills, k, by rw [within, same]⟩
  left
  rw [length_take] at fills
  have short : run.length ≤ limit := by omega
  obtain all | full := reaches.2.1
  · rw [all, take_length, take_of_length_le short] at same
    rw [take_of_length_le short]
    exact ascii_of_length ((congrArg length same).le)
  · rw [same, length_take] at full
    omega

theorem latinText_eq_of (reaches : ReachesAt limit 0 run k)
    (fills : (run.take limit).length = limit) {j : Nat}
    (same : run.take limit = latinText ((run.take limit).take j)) :
    latinText (run.take k) = run.take limit := by
  rw [take_take] at same
  have limitLe : limit ≤ run.length := by
    rw [length_take] at fills
    omega
  have other : ReachesAt limit 0 run (min j limit) := by
    have full : (latinText (run.take (min j limit))).length = limit := by
      rw [← same]
      exact fills
    refine ⟨(Nat.min_le_right _ _).trans limitLe, .inr (by omega), ?_⟩
    intro i less
    have shorter := latinText_take_lt less ((Nat.min_le_right _ _).trans limitLe)
    omega
  rw [reaches.unique other, ← same]

/-- The bytes within a limit are stored as they are: ASCII, an unsigned `char` in ASCII, or in UTF-8
the encoding of their own beginning. -/
def StoredAsIs (codeset : Codeset) (signed : Bool) (limit : Nat) (part : List UInt8) : Prop :=
  (∀ b ∈ part, b < 128) ∨ (signed = false ∧ (codeset = .ascii ∨
        (part.length = limit ∧ ∃ k, part = latinText (part.take k))))

section Copies

variable {bytes : List UInt8} (nz : ∀ b ∈ bytes, b ≠ 0)
include nz

theorem readBytes_iff :
    (∃ rest, readBytes codeset.charcode acc (some limit) 0 (bytes.map (charValue signed)) =
        some ((acceptedRun acc signed bytes).take limit, rest)) ↔
      StoredAsIs codeset signed limit ((acceptedRun acc signed bytes).take limit) := by
  have reads (part : List UInt8) : (∃ rest, readBytes codeset.charcode acc (some limit) 0
      (bytes.map (charValue signed)) = some (part, rest)) ↔
        storeRun (storedUnits codeset signed) limit 0 (acceptedRun acc signed bytes) =
          some part := by
    simp [← readBytes_eq nz, Option.map_eq_some_iff]
  rw [reads]
  constructor
  · intro stores
    cases signed with
    | true =>
      left
      intro b mem
      by_contra notAscii
      cases (storeRun_signed mem notAscii).symm.trans stores
    | false =>
      cases codeset with
      | ascii => exact .inr ⟨rfl, .inl rfl⟩
      | utf8 =>
        obtain ⟨k, reaches, isStored⟩ := storeRun_latin 0 (acceptedRun acc false bytes)
        cases of_latinText_eq reaches (Option.some.inj (isStored.symm.trans stores)) with
        | inl ascii => exact .inl ascii
        | inr fills => exact .inr ⟨rfl, .inr fills⟩
  · rintro (ascii | ⟨rfl, rfl | ⟨fills, k, same⟩⟩)
    · exact storeRun_of_same fun b mem => storedUnits_ascii codeset signed (ascii b mem)
    · exact storeRun_of_same fun b _ => storedUnits_unsigned b
    cases codeset with
    | ascii => exact storeRun_of_same fun b _ => storedUnits_unsigned b
    | utf8 =>
      obtain ⟨k, reaches, isStored⟩ := storeRun_latin 0 (acceptedRun acc false bytes)
      rwa [latinText_eq_of reaches fills same] at isStored

omit nz in
theorem lookAhead_map (signed : Bool) (bytes : List UInt8) (nz : ∀ b ∈ bytes, b ≠ 0) :
    lookAhead (bytes.map (charValue signed)) = 0 ↔ bytes = [] := by
  cases bytes with
  | nil => exact iff_of_true rfl rfl
  | cons b bytes =>
    refine iff_of_false ?_ (cons_ne_nil b bytes)
    change charValue signed b ≠ 0
    have pos : b.toNat ≠ 0 := fun isZero => nz b mem_cons_self (UInt8.toNat_inj.mp isZero)
    have small := b.toNat_lt
    unfold charValue
    split_ifs <;> omega

def partStores (terminated : Bool) (part : List UInt8) : List Store :=
  if part = [] then [] else [.bytes (part ++ if terminated then [0] else [])]

variable (codeset acc) in
theorem scanCharacters_iff {directive : Directive} (plain : directive.type = .int)
    (notSuppressed : directive.suppressed = false) (pos : 0 < limit) (terminated : Bool)
    (begins : ∀ b ∈ bytes.head?, acc (charValue signed b) = true) :
    (∃ count rest, (scanCharacters codeset.charcode directive acc (some limit) terminated
        (bytes.map (charValue signed))).result = .returns count rest
            (partStores terminated ((acceptedRun acc signed bytes).take limit))) ↔
      StoredAsIs codeset signed limit ((acceptedRun acc signed bytes).take limit) := by
  unfold scanCharacters
  by_cases empty : bytes = []
  · rw [if_pos ((lookAhead_map signed bytes nz).mpr empty)]
    subst empty
    have nothing : (acceptedRun acc signed []).take limit = [] := take_nil
    rw [nothing]
    refine iff_of_true ⟨_, _, rfl⟩ (.inl ?_)
    intro b mem
    cases mem
  have ne : (acceptedRun acc signed bytes).take limit ≠ [] := by
    cases bytes with
    | nil => exact absurd rfl empty
    | cons b bytes =>
      obtain ⟨n, rfl⟩ := Nat.exists_eq_add_of_lt pos
      rw [acceptedRun_cons (begins b rfl), zero_add, take_succ_cons]
      exact cons_ne_nil _ _
  rw [if_neg (mt (lookAhead_map signed bytes nz).mp empty), if_neg (by simp [plain]),
    ← readBytes_iff nz, partStores, if_neg ne]
  cases reads : readBytes codeset.charcode acc (some limit) 0 (bytes.map (charValue signed)) with
  | none =>
    refine iff_of_false ?_ ?_
    · rintro ⟨count, rest, isResult⟩
      cases isResult
    · rintro ⟨rest, isRead⟩
      cases isRead
  | some read =>
    obtain ⟨content, rest⟩ := read
    dsimp only
    constructor
    · rintro ⟨count, other, isResult⟩
      by_cases nothing : terminated = true ∧ content = []
      · rw [if_pos nothing] at isResult
        cases (Result.returns.inj isResult).2.2
      · rw [if_neg nothing, notSuppressed] at isResult
        have same := Store.bytes.inj (cons.inj (Result.returns.inj isResult).2.2).1
        exact ⟨rest, by rw [append_cancel_right same]⟩
    · rintro ⟨rest, isRead⟩
      cases isRead
      rw [if_neg (by simp [ne]), notSuppressed]
      exact ⟨_, _, rfl⟩

end Copies

section Strings

variable (codeset : Codeset) (signed : Bool) (isspace : Int → Bool) (wordBits : Nat)

def copiedBytes (directive : DirectiveText) (bytes : List UInt8) : List UInt8 :=
  if directive.conversion = 115 then
    ((bytes.dropWhile fun b => isspace (charValue signed b)).takeWhile
      fun b => !isspace (charValue signed b)).take directive.limit
  else bytes.take directive.limit

/-- `vsscanf` stores the bytes that the conversion copies, and no assertion fails.  If there are
none, then nothing is stored. -/
def CopiesBytes (directive : DirectiveText) (bytes : List UInt8) : Prop :=
  ∃ count rest, vsscanf codeset.charcode isspace wordBits (bytes.map (charValue signed))
        (37 :: directive.text) =
      .returns count rest (partStores (decide (directive.conversion = 115))
        (copiedBytes signed isspace directive bytes))

variable {codeset signed isspace wordBits}

/-- `%s` and `%c` copy their bytes exactly if the width is an `int` and the bytes are stored as they
are. -/
theorem string_conversion_iff (percent : isspace 37 = false) {directive : DirectiveText}
    (isString : directive.conversion = 115 ∨ directive.conversion = 99)
    (plain : directive.type = .int) (positive : 0 < directive.limit) {bytes : List UInt8}
    (nz : ∀ b ∈ bytes, b ≠ 0) :
    CopiesBytes codeset signed isspace wordBits directive bytes ↔ directive.limit < 2 ^ 31 ∧
        StoredAsIs codeset signed directive.limit (copiedBytes signed isspace directive bytes) := by
  unfold CopiesBytes
  rw [vsscanf_text directive percent]
  by_cases small : directive.limit < 2 ^ 31
  · simp only [small, true_and]
    obtain isString | isChar := isString
    · have scanned : scanDirective codeset.charcode isspace wordBits directive.meaning
          (bytes.map (charValue signed)) =
          scanCharacters codeset.charcode directive.meaning (fun c => !isspace c)
            (some directive.limit) true
            ((bytes.dropWhile fun b => isspace (charValue signed b)).map (charValue signed)) := by
        have conversion : directive.meaning.conversion = 115 := isString
        have width : directive.meaning.width ≠ 0 := ne_of_gt positive
        have spaces : (bytes.map (charValue signed)).dropWhile isspace =
            (bytes.dropWhile fun b => isspace (charValue signed b)).map (charValue signed) :=
          dropWhile_map
        simp only [scanDirective, conversion, spaces, if_neg width]
        rfl
      rw [scanned, copiedBytes, if_pos isString, decide_eq_true isString]
      apply scanCharacters_iff codeset _ _ plain rfl positive
      · intro b isHead
        have stops := head?_dropWhile_not (fun b => isspace (charValue signed b)) bytes
        rw [Option.mem_def.mp isHead] at stops
        rw [Bool.not_eq_true']
        exact stops
      · exact fun b mem => nz b ((dropWhile_sublist _).mem mem)
    · have scanned : scanDirective codeset.charcode isspace wordBits directive.meaning
          (bytes.map (charValue signed)) =
          scanCharacters codeset.charcode directive.meaning (fun _ => true)
            (some directive.limit) false (bytes.map (charValue signed)) := by
        have conversion : directive.meaning.conversion = 99 := isChar
        have width : directive.meaning.width ≠ 0 := ne_of_gt positive
        simp only [scanDirective, conversion, if_neg width]
        rfl
      have notString : directive.conversion ≠ 115 := by omega
      have part : bytes.take directive.limit =
          (acceptedRun (fun _ => true) signed bytes).take directive.limit := by
        rw [acceptedRun, takeWhile_eq_self_iff.mpr fun _ _ => rfl]
      rw [scanned, copiedBytes, if_neg notString, decide_eq_false notString, part]
      exact scanCharacters_iff codeset _ nz plain rfl positive false fun _ _ => rfl
  · refine iff_of_false ?_ (fun holds => small holds.1)
    rintro ⟨count, rest, isResult⟩
    rw [if_neg small] at isResult
    cases isResult

def sevenWide : DirectiveText where
  width := [55]
  modifier := []
  type := .int
  conversion := 115
  isWidth := by decide
  widthPositive := by decide
  isModifier := noModifier
  isConversion := by decide

theorem string_conversion_word : CopiesBytes .utf8 true isSpace 64 sevenWide [32, 97, 98, 32, 99] :=
  (string_conversion_iff (by decide) (.inl rfl) rfl (by decide) (by simp)).mpr
    ⟨by decide, .inl (by decide +kernel)⟩

/-- `%7s` on the byte `E9`: the process stops, or where `char` is unsigned the byte becomes two. -/
theorem string_conversion_accent :
    vsscanf asciiCharcode isSpace 64 ([0xE9].map (charValue true)) (37 :: sevenWide.text) =
        .ensureFails ∧
      ¬CopiesBytes .ascii true isSpace 64 sevenWide [0xE9] ∧
      vsscanf utf8Charcode isSpace 64 ([0xE9].map (charValue false)) (37 :: sevenWide.text) =
        .returns 1 [] [.bytes [0xC3, 0xA9, 0]] ∧
      ¬CopiesBytes .utf8 false isSpace 64 sevenWide [0xE9] := by
  have fails : vsscanf asciiCharcode isSpace 64 ([0xE9].map (charValue true))
      (37 :: sevenWide.text) = .ensureFails := by decide +kernel
  have two : vsscanf utf8Charcode isSpace 64 ([0xE9].map (charValue false))
      (37 :: sevenWide.text) = .returns 1 [] [.bytes [0xC3, 0xA9, 0]] := by decide +kernel
  refine ⟨fails, ?_, two, ?_⟩
  · rintro ⟨count, rest, isResult⟩
    cases fails.symm.trans isResult
  · rintro ⟨count, rest, isResult⟩
    cases two.symm.trans isResult

end Strings

end Mlibc.Scanf
