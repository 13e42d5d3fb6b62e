import Mathlib.Data.Fin.VecNotation
import Mlibc.InetDotted

/-! # Addresses through text -/

namespace Mlibc.Inet

open IntegerText NumeralText StringToInteger List

def LargeEnough (address : Address) (size : Nat) : Prop :=
  ∃ text, inetNtop address size = .text text

def RoundTrips (long : IntegerType) (family : Family) (address : Address) (size : Nat) : Prop :=
  ∃ text, inetNtop address size = .text text ∧ inetPton long family text = .stored address

def ZeroBehindFirst (src : In6Addr) : Prop :=
  mapped src = true ∧ byteAt src 12 ≠ 0 ∧
    (byteAt src 13 = 0 ∨ byteAt src 14 = 0 ∨ byteAt src 15 = 0)

section Bytes

variable (src : In6Addr)

theorem length_words : (wordsFrom src 0).length = 8 := by
  rw [wordsFrom, length_map, length_range']

theorem words_lt : ∀ word ∈ wordsFrom src 0, word < 65536 := by
  intro word mem
  obtain ⟨i, _, rfl⟩ := mem_map.mp mem
  exact quartet_lt src i

theorem wordBytes_words : wordBytes (wordsFrom src 0) = src := by
  have words (j : Nat) (inside : j < 8) : (wordsFrom src 0).getD j 0 = quartet src j := by
    rw [getD_eq_getElem?_getD, wordsFrom, getElem?_map, getElem?_range' inside]
    simp
  funext k
  have inside : k.val / 2 < 8 := by omega
  have low := (byteAt src (k.val / 2 * 2 + 1)).toNat_lt
  have high := (byteAt src (k.val / 2 * 2)).toNat_lt
  have here (index : Nat) (same : index = k.val) : byteAt src index = src k := by
    rw [byteAt, same, Fin.ofNat_val_eq_self]
  apply UInt8.toNat.inj
  rw [wordBytes, words _ inside, quartet_eq, UInt8.toNat_ofNat']
  split_ifs with even
  · rw [← here (k.val / 2 * 2) (by omega)]
    omega
  · rw [← here (k.val / 2 * 2 + 1) (by omega)]
    omega

theorem words_mapped (isMapped : mapped src = true) : wordsFrom src 0 =
      [0, 0, 0, 0, 0, 65535, (byteAt src 12).toNat * 256 + (byteAt src 13).toNat,
        (byteAt src 14).toNat * 256 + (byteAt src 15).toNat] := by
  have words : wordsFrom src 0 =
      [quartet src 0, quartet src 1, quartet src 2, quartet src 3, quartet src 4,
        quartet src 5, quartet src 6, quartet src 7] := rfl
  simp only [mapped, Bool.and_eq_true, all_eq_true, decide_eq_true_eq] at isMapped
  obtain ⟨⟨zero, ten⟩, eleven⟩ := isMapped
  rw [words]
  simp [quartet_eq, zero, ten, eleven]

theorem isHexDigit_of_isDigitOf {c : Int} (isDigit : isDigitOf 16 c = true) :
    isHexDigit c = true := by
  grind [isDigitOf, digitValue, isUpper, isLower, isHexDigit]

variable {words : List Nat} {text : List Int}

theorem begins_writes (eight : words.length = 8)
    (writes : Writes words text) : ¬(isHexDigit (peek text) = false ∧ peek text ≠ colon) := by
  have digit (word : Nat) (rest : List Int) :
      isHexDigit (peek (numberText 16 word ++ rest)) = true := by
    apply isHexDigit_of_isDigitOf
    exact isDigitOf_numberText (by decide) (by decide) word _ (peek_mem 16 word rest)
  rintro ⟨notDigit, notColon⟩
  obtain rfl | ⟨front, zeros, back, _, _, rfl⟩ := writes
  · cases words with
    | nil => cases eight
    | cons word words =>
      rw [joined, digit] at notDigit
      cases notDigit
  · cases front with
    | nil => exact notColon rfl
    | cons word words =>
      rw [joined, append_assoc, digit] at notDigit
      cases notDigit

theorem length_joinedBehind (small : ∀ word ∈ words, word < 65536) :
    (joinedBehind words).length ≤ 5 * words.length := by
  induction words with
  | nil => exact le_rfl
  | cons word words ih =>
    have here : (numberText 16 word).length ≤ 4 :=
      (numberText_length_le_iff (by decide) (by decide)).mpr (small word mem_cons_self)
    have others := ih (fun other mem => small other (mem_cons_of_mem word mem))
    rw [joinedBehind, flatMap_cons, length_append, length_cons, length_cons]
    change _ + (joinedBehind words).length ≤ _
    omega

theorem length_joined (small : ∀ word ∈ words, word < 65536) :
    (joined words).length ≤ 5 * words.length := by
  cases words with
  | nil => exact le_rfl
  | cons word words =>
    have whole := length_joinedBehind small
    rw [joinedBehind, flatMap_cons, length_append, length_cons] at whole
    rw [joined, length_append]
    change _ + (joinedBehind words).length ≤ _ at whole
    omega

theorem length_writes (eight : words.length = 8) (small : ∀ word ∈ words, word < 65536)
    (writes : Writes words text) : text.length ≤ 40 := by
  obtain rfl | ⟨front, zeros, back, isBlock, rfl, rfl⟩ := writes
  · have bound := length_joined small
    omega
  have frontBound := length_joined fun word mem => small word (mem_append_left _ mem)
  have backBound := length_joined fun word mem =>
    small word (mem_append_right _ (mem_append_right _ mem))
  simp only [length_append, length_replicate, length_cons] at eight ⊢
  omega

def inet6Text : List Int :=
  if mapped src then
    mappedText (byteAt src 12).toNat (byteAt src 13).toNat (byteAt src 14).toNat
      (byteAt src 15).toNat
  else quartetText src (zeroes src) 8 0 []

/-- The block of zeros ends the address, and the buffer has no room for the colons and the
terminator. -/
def spills (size : Nat) : Bool :=
  mapped src = false ∧ blockLast (zeroes src) 0 ∧ size ≤ (inet6Text src).length ∧
    (0 < size ∧ (inet6Text src).length < size + 2 ∨ size = 0 ∧ (zeroes src).maxOff = 0)

theorem ntopInet6_eq (size : Nat) : ntopInet6 src size =
      if (inet6Text src).length < size then .text (inet6Text src)
      else if spills src size then .overruns else .fails .enospc := by
  unfold ntopInet6 spills
  by_cases isMapped : mapped src = true
  · rw [inet6Text]
    simp only [isMapped]
    exact snprintf_printed _
  · rw [if_neg isMapped, inet6Text, if_neg isMapped]
    simp only [isMapped, decide_eq_true_eq]
    by_cases room : 0 < size
    · rw [printQuartets_eq (by decide) room]
      cases blockLast (zeroes src) 0 <;> simp only [Bool.false_eq_true, false_and, true_and]
      all_goals split_ifs <;> first | rfl | omega
    · obtain rfl : size = 0 := Nat.eq_zero_of_not_pos room
      rw [printQuartets_full (by decide) (Nat.le_refl 0), if_neg (Nat.not_lt_zero _)]
      refine if_congr ?_ rfl rfl
      cases blockLast (zeroes src) 0 <;> simp
      exact eq_comm

theorem ntopInet6_eq_text_iff (size : Nat) (text : List Int) :
    ntopInet6 src size = .text text ↔ text = inet6Text src ∧ text.length < size := by
  rw [ntopInet6_eq]
  apply ite_eq_text_iff
  split_ifs <;> exact nofun

variable {size : Nat}

theorem ptonInet6_printed (long : IntegerType) (printed : ntopInet6 src size = .text text) :
    ptonInet6 long text = .ok src ↔ ¬ZeroBehindFirst src := by
  obtain ⟨isText, _⟩ := (ntopInet6_eq_text_iff src size text).mp printed
  have zero (i : Nat) : (byteAt src i).toNat = 0 ↔ byteAt src i = 0 := by
    rw [← UInt8.toNat_inj]
    rfl
  by_cases isMapped : mapped src = true
  · rw [isText, inet6Text, if_pos isMapped, ptonInet6_mappedText (UInt8.toNat_lt _)
      (UInt8.toNat_lt _) (UInt8.toNat_lt _) (UInt8.toNat_lt _), ← words_mapped src isMapped,
      wordBytes_words]
    simp only [ZeroBehindFirst, isMapped, true_and, Ne, zero]
    split_ifs with rejects
    · exact iff_of_false (by simp) (not_not_intro rejects)
    · exact iff_of_true rfl rejects
  · have writes := quartetText_writes src
    obtain ⟨quartets, parsed, complete, expanded⟩ :=
      parseQuartets_writes long (length_words src) (words_lt src) writes
    have begins := begins_writes (length_words src) writes
    rw [isText, inet6Text, if_neg isMapped]
    simp only [ptonInet6, if_neg begins, parsed, if_neg complete, expanded, wordBytes_words]
    exact iff_of_true rfl (fun behind => isMapped behind.1)

theorem largeEnough_inet6 (large : 46 ≤ size) : LargeEnough (.inet6 src) size := by
  refine ⟨_, (ntopInet6_eq_text_iff src size _).mpr ⟨rfl, ?_⟩⟩
  unfold inet6Text
  split_ifs
  · have bound := dotted_length (byteAt src 12).toNat_lt (byteAt src 13).toNat_lt
      (byteAt src 14).toNat_lt (byteAt src 15).toNat_lt
    have ffff : (numberText 16 65535).length = 4 := by decide
    simp only [mappedText, length_append, length_cons, length_nil]
    omega
  · have bound := length_writes (length_words src) (words_lt src) (quartetText_writes src)
    omega

theorem largeEnough_inet (addr : InAddr) (large : 16 ≤ size) : LargeEnough (.inet addr) size := by
  have bound : (inetText addr).length ≤ 15 := dotted_length (addr 0).toNat_lt (addr 1).toNat_lt
    (addr 2).toNat_lt (addr 3).toNat_lt
  exact ⟨_, (ntopInet_eq addr size).trans (if_pos (by omega))⟩

end Bytes

/-- Every IPv4 address goes through text unchanged, and an IPv6 address does if and only if it is
not a mapped one with a zero behind a first number that is not zero. -/
theorem inet_roundTrips_iff (long : IntegerType) :
    (∀ addr size, 16 ≤ size → LargeEnough (.inet addr) size) ∧
      (∀ src size, 46 ≤ size → LargeEnough (.inet6 src) size) ∧
      (∀ addr size, LargeEnough (.inet addr) size → RoundTrips long .inet (.inet addr) size) ∧
      ∀ src size, LargeEnough (.inet6 src) size →
        (RoundTrips long .inet6 (.inet6 src) size ↔ ¬ZeroBehindFirst src) := by
  refine ⟨fun addr _ => largeEnough_inet addr, fun src _ => largeEnough_inet6 src, ?_, ?_⟩
  · rintro addr size ⟨text, printed⟩
    refine ⟨text, printed, ?_⟩
    obtain ⟨rfl, _⟩ := (ite_eq_text_iff (by simp)).mp ((ntopInet_eq addr size).symm.trans printed)
    rw [inetPton, ptonInet_inetText]
    rfl
  rintro src size ⟨text, printed⟩
  rw [← ptonInet6_printed src long printed]
  have stored : inetPton long .inet6 text = .stored (.inet6 src) ↔
      ptonInet6 long text = .ok src := by
    unfold inetPton
    cases ptonInet6 long text with
    | error stop => cases stop <;> simp [outcome]
    | ok stored => simp [outcome]
  constructor
  · rintro ⟨other, isOther, parsed⟩
    rw [printed] at isOther
    cases isOther
    exact stored.mp parsed
  · intro parsed
    exact ⟨text, printed, stored.mpr parsed⟩

theorem inet_roundTrips_loopback :
    RoundTrips ⟨64, true, .inr rfl⟩ .inet (.inet ![127, 0, 0, 1]) 16 ∧
      RoundTrips ⟨64, true, .inr rfl⟩ .inet6
        (.inet6 ![32, 1, 13, 184, 0, 0, 0, 0, 0, 0, 0, 0, 0, 0, 0, 1]) 46 := by
  obtain ⟨room, room6, inet, inet6⟩ := inet_roundTrips_iff ⟨64, true, .inr rfl⟩
  refine ⟨inet _ 16 (room _ 16 (by decide)), (inet6 _ 46 (room6 _ 46 (by decide))).mpr ?_⟩
  unfold ZeroBehindFirst
  decide

/-- The address `::ffff:127.0.0.1`. -/
theorem inet_mapped_loopback :
    LargeEnough (.inet6 ![0, 0, 0, 0, 0, 0, 0, 0, 0, 0, 255, 255, 127, 0, 0, 1]) 46 ∧
      ¬RoundTrips ⟨64, true, .inr rfl⟩ .inet6
        (.inet6 ![0, 0, 0, 0, 0, 0, 0, 0, 0, 0, 255, 255, 127, 0, 0, 1]) 46 := by
  have printed : inetNtop (.inet6 ![0, 0, 0, 0, 0, 0, 0, 0, 0, 0, 255, 255, 127, 0, 0, 1]) 46 =
      .text (mappedText 127 0 0 1) := by decide +kernel
  refine ⟨⟨_, printed⟩, ?_⟩
  rintro ⟨text, isText, parsed⟩
  cases isText
  cases parsed

/-! ### The buffer of `inet_ntop` -/

/-- The whole text if it fits with its terminator and ENOSPC otherwise, without a byte outside of
the buffer. -/
def Respects (address : Address) (text : List Int) (size : Nat) : Prop :=
  inetNtop address size = if text.length < size then .text text else .fails .enospc

/-- `inet_ntop` keeps to the buffer for every IPv4 address, and for an IPv6 address exactly if the
colons at its end do not fill the buffer. -/
theorem inetNtop_respects_iff (addr : InAddr) (src : In6Addr) (size : Nat) :
    Respects (.inet addr) (inetText addr) size ∧
      (Respects (.inet6 src) (inet6Text src) size ↔ spills src size = false) := by
  refine ⟨ntopInet_eq addr size, ?_⟩
  rw [Respects, inetNtop, ntopInet6_eq]
  cases spilled : spills src size with
  | false => simp
  | true =>
    have short : ¬ (inet6Text src).length < size := by
      simp only [spills, decide_eq_true_eq] at spilled
      omega
    simp [short]

/-- The two colons of the address without a set bit fill the buffer, and the terminator goes
behind it. -/
theorem inetNtop_spills :
    inetNtop (.inet6 ![0, 0, 0, 0, 0, 0, 0, 0, 0, 0, 0, 0, 0, 0, 0, 0]) 2 = .overruns := by
  decide +kernel

end Mlibc.Inet
