import Mathlib.Tactic.FinCases
import Mlibc.Inet

/-! # Dotted quads -/

namespace Mlibc.Inet

open IntegerText NumeralText StringToInteger List

def octetValue (group : List Int) : Nat := numeral 10 (digitValues group)

def isOctet (group : List Int) : Bool :=
  group ≠ [] ∧ group.all isDigit ∧ group.length ≤ 3 ∧ octetValue group ≤ 255

def groups (text : List Int) : List (List Int) := text.splitOn dot

/-- Four groups of one to three digits with values of at most 255, and dots between them. -/
def isQuad (text : List Int) : Bool := (groups text).length = 4 ∧ (groups text).all isOctet

variable {group behind : List Int}

theorem isDigitOf_ten : isDigitOf 10 = isDigit := by
  grind [isDigitOf, digitValue, isDigit, isUpper, isLower]

theorem expected_le_iff (long : IntegerType) (number : Nat) :
    expected long false number ≤ 255 ↔ number ≤ 255 := by
  by_cases small : number ≤ 2147483647
  · rw [expected_small long small]
    omega
  · obtain ⟨bits, signed, rfl | rfl⟩ := long <;> cases signed <;>
      grind [expected, InRange, signedNumber, IntegerType.max]

theorem strtol_cons (long : IntegerType) {c : Int} (digit : isDigit c = true) (rest : List Int) :
    strtol long (c :: rest) 10 = (expected long false (octetValue ((c :: rest).takeWhile isDigit)),
        ((c :: rest).takeWhile isDigit).length, (c :: rest).dropWhile isDigit) := by
  have ten : long.convert ((10 : Nat) : Int) = 10 := convert_base (by decide) (by decide)
  obtain ⟨behind, pos⟩ := plain_of_digitValue (if_pos digit : digitValue c = _) rest
  have noPrefix : skipPrefix (long.convert ((10 : Nat) : Int)) (afterSign (c :: rest)) =
      (((10 : Nat) : Int), c :: rest) := by
    rw [ten, behind]
    rfl
  have large := le_magnitude long (isNegative (c :: rest))
  have converted := stringToInteger_eq (by rw [ten]; decide) noPrefix (by decide) (by omega)
  rw [isDigitOf_ten, if_neg (by simp [digit]), pos] at converted
  have split : (c :: rest).takeWhile isDigit ++ (c :: rest).dropWhile isDigit = c :: rest :=
    takeWhile_append_dropWhile
  have length : (c :: rest).length - ((c :: rest).dropWhile isDigit).length =
      ((c :: rest).takeWhile isDigit).length := by
    have lengths := congrArg length split
    rw [length_append] at lengths
    omega
  simp only [strtol, converted, length]
  exact congrArg (fun rest => (_, _, rest)) ((congrArg _ split).symm.trans drop_left)

theorem octet_eq (long : IntegerType) (clean : ∀ c ∈ group, c ≠ 0 ∧ c ≠ dot)
    (follows : behind = [] ∨ ∃ rest, behind = dot :: rest) :
    octet long (some (group ++ behind)) = if isOctet group then
      .ok (octetValue group, behind.tail?) else .error .rejected := by
  have stops : behind.takeWhile isDigit = [] ∧ behind.dropWhile isDigit = behind := by
    obtain rfl | ⟨rest, rfl⟩ := follows <;> exact ⟨rfl, rfl⟩
  cases group with
  | nil => obtain rfl | ⟨rest, rfl⟩ := follows <;> rfl
  | cons c others =>
    by_cases digit : isDigit c = true
    · have converted := strtol_cons long digit (others ++ behind)
      rw [← cons_append] at converted
      have begins : isDigit (peek (c :: others ++ behind)) = true := digit
      simp only [octet, begins, Bool.true_eq_false, if_false, converted]
      cases left : (c :: others).dropWhile isDigit with
      | nil =>
        have ds := dropWhile_eq_nil_iff.mp left
        have large := expected_le_iff long (octetValue (c :: others))
        have acc : isOctet (c :: others) = true ↔
            (c :: others).length ≤ 3 ∧ octetValue (c :: others) ≤ 255 := by
          simp only [isOctet, all_eq_true.mpr ds]
          simp
        rw [takeWhile_append_of_pos ds, dropWhile_append_of_pos ds, stops.1, append_nil]
        by_cases isOctet : (c :: others).length ≤ 3 ∧ octetValue (c :: others) ≤ 255
        · rw [if_pos (acc.mpr isOctet), if_neg (by omega),
            expected_small long (by omega : octetValue (c :: others) ≤ 2147483647)]
          have value : ((octetValue (c :: others) : Int) % 256).toNat = octetValue
              (c :: others) := by
            omega
          rw [value]
          obtain rfl | ⟨rest, rfl⟩ := follows <;> rfl
        · rw [if_neg (mt acc.mp isOctet), if_pos (by omega)]
      | cons other rest =>
        have mem : other ∈ c :: others := (dropWhile_sublist _).subset (left ▸ mem_cons_self)
        have dropped : (c :: others ++ behind).dropWhile isDigit = other :: (rest ++ behind) := by
          rw [dropWhile_append, left]
          rfl
        have notAll : ¬(c :: others).all isDigit = true := by
          rw [all_eq_true, ← dropWhile_eq_nil_iff, left]
          exact cons_ne_nil other rest
        have refused : isOctet (c :: others) = false :=
          decide_eq_false fun acc => notAll acc.2.1
        have notEnd : peek (other :: (rest ++ behind)) ≠ 0 ∧ peek (other ::
            (rest ++ behind)) ≠ dot :=
          clean other mem
        rw [dropped, if_pos notEnd, ite_self, refused]
        rfl
    · have refused : isOctet (c :: others) = false := by simp [isOctet, digit]
      have begins : isDigit (peek (c :: others ++ behind)) = false :=
        Bool.eq_false_of_not_eq_true digit
      rw [octet, if_pos begins, refused]
      rfl

/-- The loop reads the first groups, and reads on behind the terminator when there are fewer. -/
theorem octets_eq (long : IntegerType) (n : Nat) (src : Option (List Int))
    (noNul : ∀ text ∈ src, 0 ∉ text) :
    octets long n src =
      if ((src.elim [] groups).take n).all isOctet = true then
        if n ≤ (src.elim [] groups).length then
          .ok (((src.elim [] groups).take n).map octetValue)
        else .error .overruns
      else .error .rejected := by
  induction n generalizing src with
  | zero => simp [octets]
  | succ n ih =>
    cases src with
    | none => simp [octets, octet]
    | some text =>
      obtain ⟨group, behind, rfl, noDot, follows, isGroups⟩ : ∃ group behind,
          text = group ++ behind ∧ dot ∉ group ∧ (behind = [] ∨ ∃ rest, behind = dot :: rest) ∧
          groups text = group :: behind.tail?.elim [] groups := by
        by_cases hasDot : dot ∈ text
        · obtain ⟨group, rest, rfl, noDot⟩ := eq_append_cons_of_mem hasDot
          exact ⟨group, dot :: rest, rfl, noDot, .inr ⟨rest, rfl⟩,
            splitOn_append_cons_self_of_not_mem noDot rest⟩
        · exact ⟨text, [], (append_nil text).symm, hasDot, .inl rfl, splitOn_eq_singleton hasDot⟩
      have clean : 0 ∉ group ++ behind := noNul _ rfl
      rw [mem_append, not_or] at clean
      have plain : ∀ c ∈ group, c ≠ 0 ∧ c ≠ dot := fun c mem =>
        ⟨fun isNul => clean.1 (isNul ▸ mem), fun isDot => noDot (isDot ▸ mem)⟩
      rw [octets, Option.elim_some, isGroups, take_succ_cons, all_cons, octet_eq long plain follows]
      cases acc : isOctet group with
      | true =>
        have read := ih behind.tail? (by
          obtain rfl | ⟨rest, rfl⟩ := follows
          · simp
          · rintro _ ⟨⟩
            exact fun mem => clean.2 (mem_cons_of_mem _ mem))
        simp only [if_true, read, Bool.true_and, length_cons, Nat.add_le_add_iff_right]
        split_ifs <;> rfl
      | false => rfl

theorem bytes_or {a b c d : Nat} (second : b < 256) (third : c < 256) (fourth : d < 256) :
    a <<< 24 ||| b <<< 16 ||| c <<< 8 ||| d = a * 16777216 + b * 65536 + c * 256 + d := by
  have first : a <<< 24 ||| b <<< 16 = (a * 256 + b) <<< 16 := by
    have small : b <<< 16 < 2 ^ 24 := by
      omega
    rw [← Nat.shiftLeft_add_eq_or_of_lt small]
    omega
  have both : (a * 256 + b) <<< 16 ||| c <<< 8 = ((a * 256 + b) * 256 + c) <<< 8 := by
    have small : c <<< 8 < 2 ^ 16 := by
      omega
    rw [← Nat.shiftLeft_add_eq_or_of_lt small]
    omega
  rw [first, both, ← Nat.shiftLeft_add_eq_or_of_lt (i := 8) fourth]
  omega

theorem htonl_bytes (addr : InAddr) :
    htonl ((addr 0).toNat * 16777216 + (addr 1).toNat * 65536 + (addr 2).toNat * 256 +
      (addr 3).toNat) = addr := by
  have first := (addr 0).toNat_lt
  have second := (addr 1).toNat_lt
  have third := (addr 2).toNat_lt
  have fourth := (addr 3).toNat_lt
  funext k
  apply UInt8.toNat.inj
  fin_cases k <;> simp [htonl] <;> omega

theorem ptonInet_quad (long : IntegerType) {text : List Int} (noNul : 0 ∉ text)
    (quad : isQuad text = true) :
    ptonInet long text = .ok fun k => UInt8.ofNat (octetValue ((groups text).getD k [])) := by
  have read := octets_eq long 4 (some text) (by simpa using noNul)
  obtain ⟨four, all⟩ := of_decide_eq_true quad
  rw [Option.elim_some, take_of_length_le four.le, if_pos all, if_pos four.symm.le] at read
  rw [ptonInet, read]
  match isGroups : groups text, four with
  | [a, b, c, d], _ =>
    have small (group : List Int) (mem : group ∈ [a, b, c, d]) : octetValue group < 256 := by
      have acc := all_eq_true.mp all group (isGroups ▸ mem)
      exact Nat.lt_succ_of_le (of_decide_eq_true acc).2.2.2
    have bytes : htonl (octetValue a % 256 * 16777216 + octetValue b % 256 * 65536 +
        octetValue c % 256 * 256 + octetValue d % 256) = _ :=
      htonl_bytes fun k => UInt8.ofNat (octetValue ([a, b, c, d].getD k []))
    have second := small b (by simp)
    have third := small c (by simp)
    have fourth := small d (by simp)
    rw [Nat.mod_eq_of_lt (small a (by simp)), Nat.mod_eq_of_lt second, Nat.mod_eq_of_lt third,
      Nat.mod_eq_of_lt fourth, ← bytes_or second third fourth] at bytes
    exact congrArg Except.ok bytes

/-- A text is accepted if and only if it is a dotted quad, and is not read behind its end exactly
when it does not begin like a quad without being one. -/
theorem inetPton_quad_iff (long : IntegerType) (text : List Int) (noNul : 0 ∉ text) :
    (inetPton long .inet text = if isQuad text then
      .stored (.inet fun k => UInt8.ofNat (octetValue ((groups text).getD k [])))
      else .rejected) ↔
      (((groups text).take 4).all isOctet = true → (groups text).length = 4) := by
  have read := octets_eq long 4 (some text) (by simpa using noNul)
  rw [Option.elim_some] at read
  cases quad : isQuad text with
  | true =>
    rw [inetPton, ptonInet_quad long noNul quad]
    exact iff_of_true rfl fun _ => (of_decide_eq_true quad).1
  | false =>
    by_cases all : ((groups text).take 4).all isOctet = true
    · have notFour : (groups text).length ≠ 4 := by
        intro four
        rw [take_of_length_le four.le] at all
        simp [isQuad, four, all] at quad
      rw [if_pos all] at read
      apply iff_of_false _ fun isFour => notFour (isFour all)
      by_cases enough : 4 ≤ (groups text).length
      · rw [if_pos enough] at read
        rw [inetPton, ptonInet, read]
        exact nofun
      · rw [if_neg enough] at read
        rw [inetPton, ptonInet, read]
        exact nofun
    · rw [if_neg all] at read
      rw [inetPton, ptonInet, read]
      exact iff_of_true rfl fun isAll => absurd isAll all

theorem inetPton_quad_loopback :
    ∃ address, inetPton ⟨64, true, .inr rfl⟩ .inet [49, 50, 55, 46, 48, 46, 48, 46, 49] =
      .stored address :=
  ⟨_, ((inetPton_quad_iff ⟨64, true, .inr rfl⟩ [49, 50, 55, 46, 48, 46, 48, 46, 49]
    (by decide)).mpr (by decide)).trans (if_pos (by decide))⟩

/-- The texts `1.2.3` and `1.2.3.4.` -/
theorem inetPton_not_quad : inetPton ⟨64, true, .inr rfl⟩ .inet [49, 46, 50, 46, 51] = .overruns ∧
      ∃ address, inetPton ⟨64, true, .inr rfl⟩ .inet [49, 46, 50, 46, 51, 46, 52, 46] =
        .stored address :=
  ⟨by decide +kernel, _, rfl⟩

end Mlibc.Inet
