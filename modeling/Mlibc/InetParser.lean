import Mlibc.InetPrinter

/-! # The words of a text -/

namespace Mlibc.Inet

open IntegerText NumeralText StringToInteger List

def Reads (text : List Int) (word : Nat) : Prop :=
  (text = numberText 16 word ∧ word < 65536) ∨ (text = [] ∧ word = 0)

def padded (words : List Nat) : List Nat := if words = [] then [0] else words

variable {long : IntegerType} {text rest : List Int} {word fuel : Nat}

theorem stops_of_head (follows : rest = [] ∨ rest.head? = some colon) : Stops rest := by
  cases follows with
  | inl empty =>
    rw [empty]
    exact stops_nil
  | inr isColon =>
    intro c mem
    rw [isColon] at mem
    cases mem
    rfl

theorem stringToInteger_nothing (follows : rest = [] ∨ rest.head? = some colon) :
    stringToInteger long rest (16 : Nat) = ⟨0, 0, false⟩ := by
  obtain ⟨bits, signed, rfl | rfl⟩ := long <;> cases signed <;> cases rest with
  | nil => decide
  | cons c rest =>
    obtain absurdity | isColon := follows
    · cases absurdity
    · cases isColon
      rfl

variable (long rest) in
theorem strtol_reads (reads : Reads text word) (follows : rest = [] ∨ rest.head? = some colon) :
    strtol long (text ++ rest) 16 = ((word : Int), text.length, rest) ∧ text.length ≤ 4 ∧
      word < 65536 := by
  obtain ⟨rfl, small⟩ | ⟨rfl, rfl⟩ := reads
  · have converted : stringToInteger long (numberText 16 word ++ rest) (16 : Nat) =
        ⟨word, (numberText 16 word).length, false⟩ :=
      stringToInteger_numberText long (by decide) (by decide) (by omega) (stops_of_head follows)
    refine ⟨?_, (numberText_length_le_iff (by decide) (by decide)).mpr small, small⟩
    simp only [strtol, converted, drop_left]
  · refine ⟨?_, by decide, by decide⟩
    simp only [strtol, nil_append, stringToInteger_nothing follows]
    rfl

theorem toWord_of_lt (small : word < 65536) : toWord (word : Int) = word := by
  unfold toWord
  omega

theorem parseQuartets_last (quartets : Quartets) (reads : Reads text word) (last : List Int) :
    parseQuartets long (fuel + 1) quartets text last =
      .ok ({ quartets with array := quartets.array ++ [word] }, []) := by
  obtain ⟨converted, short, small⟩ := strtol_reads long [] reads (.inl rfl)
  have notLarge : ¬((word : Int) > 65535 ∨ text.length > 4) := by omega
  rw [append_nil] at converted
  simp only [parseQuartets, converted, if_neg notLarge, toWord_of_lt small]
  rfl

theorem parseQuartets_colon (quartets : Quartets) (reads : Reads text word)
    (single : peek rest ≠ colon) (last : List Int) :
    parseQuartets long (fuel + 1) quartets (text ++ colon :: rest) last = parseQuartets long fuel
        { quartets with i := quartets.i + 1, array := quartets.array ++ [word] } rest
        (colon :: rest) := by
  obtain ⟨converted, short, small⟩ := strtol_reads long (colon :: rest) reads (.inr rfl)
  have notLarge : ¬((word : Int) > 65535 ∨ text.length > 4) := by omega
  have notDouble : ¬(peek (colon :: rest) = colon ∧ peek (colon :: rest).tail = colon) :=
    fun both => single both.2
  simp only [parseQuartets, converted, if_neg notLarge, if_neg notDouble, toWord_of_lt small]
  rfl

theorem parseQuartets_double {quartets : Quartets} (first : quartets.doubleColonOffset = none)
    (reads : Reads text word) (last : List Int) :
    parseQuartets long (fuel + 1) quartets (text ++ colon :: colon :: rest) last =
      parseQuartets long fuel ⟨quartets.i + 1, quartets.array ++ [word], some (quartets.i + 1)⟩ rest
        (colon :: colon :: rest) := by
  obtain ⟨converted, short, small⟩ := strtol_reads long (colon :: colon :: rest) reads (.inr rfl)
  have notLarge : ¬((word : Int) > 65535 ∨ text.length > 4) := by omega
  simp only [parseQuartets, converted, if_neg notLarge, first, toWord_of_lt small]
  rfl

theorem reads_numberText {word : Nat} (small : word < 65536) :
    Reads (numberText 16 word) word := .inl ⟨rfl, small⟩

theorem peek_mem (base number : Nat) (rest : List Int) :
    peek (numberText base number ++ rest) ∈ numberText base number := by
  cases isText : numberText base number with
  | nil => exact absurd isText (numberText_ne_nil number)
  | cons c others => exact mem_cons_self

theorem peek_ne_colon (word : Nat) (rest : List Int) :
    peek (numberText 16 word ++ rest) ≠ colon := by
  intro isColon
  apply colon_not_mem_numberText word
  rw [← isColon]
  exact peek_mem 16 word rest

section

variable (words : List Nat) (small : ∀ word ∈ words, word < 65536)
  (reads : Reads text word) (quartets : Quartets)

include words small reads quartets

theorem parseQuartets_words (last : List Int) :
    parseQuartets long (fuel + words.length + 1) quartets (text ++ joinedBehind words) last =
      .ok ({ quartets with
        i := quartets.i + words.length
        array := quartets.array ++ word :: words }, []) := by
  induction words generalizing text word quartets last with
  | nil =>
    rw [joinedBehind, flatMap_nil, append_nil]
    exact parseQuartets_last quartets reads last
  | cons next words ih =>
    have nextSmall := small next mem_cons_self
    have othersSmall (other : Nat) (mem : other ∈ words) : other < 65536 :=
      small other (mem_cons_of_mem next mem)
    rw [joinedBehind, flatMap_cons, cons_append, length_cons, ← add_assoc,
      parseQuartets_colon quartets reads (peek_ne_colon next _)]
    change parseQuartets long _ _ (numberText 16 next ++ joinedBehind words) _ = _
    rw [ih othersSmall (reads_numberText nextSmall)]
    simp only [append_assoc]
    congr 3
    omega

theorem parseQuartets_words_double {rest : List Int} (first : quartets.doubleColonOffset = none)
    (last : List Int) :
    parseQuartets long (fuel + words.length + 1) quartets
        (text ++ (joinedBehind words ++ colon :: colon :: rest)) last =
      parseQuartets long fuel ⟨quartets.i + words.length + 1, quartets.array ++ word :: words,
          some (quartets.i + words.length + 1)⟩ rest (colon :: colon :: rest) := by
  induction words generalizing text word quartets last with
  | nil => exact parseQuartets_double first reads last
  | cons next words ih =>
    have nextSmall := small next mem_cons_self
    have othersSmall (other : Nat) (mem : other ∈ words) : other < 65536 :=
      small other (mem_cons_of_mem next mem)
    rw [joinedBehind, flatMap_cons, cons_append, cons_append, append_assoc,
      length_cons, ← add_assoc,
      parseQuartets_colon quartets reads (peek_ne_colon next _)]
    change parseQuartets long _ _
      (numberText 16 next ++ (joinedBehind words ++ colon :: colon :: rest)) _ = _
    rw [ih othersSmall (reads_numberText nextSmall)
      ⟨quartets.i + 1, quartets.array ++ [word], quartets.doubleColonOffset⟩ first]
    simp only [append_assoc, cons_append, nil_append]
    have index : quartets.i + 1 + words.length + 1 = quartets.i + (words.length + 1) + 1 := by
      omega
    rw [index]

end

variable {words : List Nat}

section Runs

variable (small : ∀ word ∈ words, word < 65536)

include small

theorem joined_reads :
    ∃ text word others, joined words = text ++ joinedBehind others ∧ Reads text word ∧
      padded words = word :: others ∧ ∀ other ∈ others, other < 65536 := by
  cases words with
  | nil =>
    refine ⟨[], 0, [], rfl, .inr ⟨rfl, rfl⟩, rfl, ?_⟩
    intro other mem
    cases mem
  | cons word words =>
    refine ⟨numberText 16 word, word, words, rfl,
      reads_numberText (small word mem_cons_self), rfl, ?_⟩
    intro other mem
    exact small other (mem_cons_of_mem word mem)

theorem parseQuartets_joined (enough : (padded words).length ≤ fuel) (quartets : Quartets)
    (last : List Int) :
    parseQuartets long fuel quartets (joined words) last = .ok ({ quartets with
        i := quartets.i + (padded words).length - 1
        array := quartets.array ++ padded words }, []) := by
  obtain ⟨text, word, others, isText, reads, isPadded, othersSmall⟩ := joined_reads small
  rw [isPadded, length_cons] at enough ⊢
  obtain ⟨spare, rfl⟩ := Nat.exists_eq_add_of_le' enough
  rw [isText, ← add_assoc, parseQuartets_words others othersSmall reads]
  rfl

theorem parseQuartets_joined_double {quartets : Quartets}
    (first : quartets.doubleColonOffset = none) (rest last : List Int) :
    parseQuartets long (fuel + (padded words).length) quartets
        (joined words ++ colon :: colon :: rest) last =
      parseQuartets long fuel ⟨quartets.i + (padded words).length, quartets.array ++ padded words,
          some (quartets.i + (padded words).length)⟩ rest (colon :: colon :: rest) := by
  obtain ⟨text, word, others, isText, reads, isPadded, othersSmall⟩ := joined_reads small
  rw [isPadded, length_cons, isText, append_assoc, ← add_assoc,
    parseQuartets_words_double others othersSmall reads quartets first]
  rfl

end Runs

theorem length_padded (words : List Nat) : (padded words).length = max 1 words.length := by
  unfold padded
  split_ifs with empty
  · rw [empty]
    rfl
  · have pos := length_pos_iff.mpr empty
    omega

theorem padded_append_zeros (front : List Nat) (n : Nat) :
    ∃ m, n ≤ m ∧ front ++ replicate (n + 1) 0 = padded front ++ replicate m 0 := by
  unfold padded
  split_ifs with empty
  · rw [empty]
    exact ⟨n, le_rfl, rfl⟩
  · exact ⟨n + 1, Nat.le_succ n, rfl⟩

theorem zeros_append_padded (back : List Nat) (n : Nat) :
    ∃ m, replicate (n + 1) 0 ++ back = replicate m 0 ++ padded back := by
  unfold padded
  split_ifs with empty
  · rw [empty, append_nil]
    exact ⟨n, replicate_succ'⟩
  · exact ⟨n + 1, rfl⟩

theorem exists_between (front back : List Nat) {zeros : Nat} (isBlock : 2 ≤ zeros) :
    ∃ between, front ++ (replicate zeros 0 ++ back) =
      padded front ++ (replicate between 0 ++ padded back) := by
  obtain ⟨spare, rfl⟩ := Nat.exists_eq_add_of_le' isBlock
  obtain ⟨fewer, atLeast, isFront⟩ := padded_append_zeros front (spare + 1)
  obtain ⟨last, rfl⟩ := Nat.exists_eq_add_of_le' ((Nat.le_add_left 1 spare).trans atLeast)
  obtain ⟨between, isBack⟩ := zeros_append_padded back last
  refine ⟨between, ?_⟩
  rw [← append_assoc, isFront, append_assoc, isBack]

theorem expand_double {front back : List Nat} {between : Nat} (isBack : back ≠ [])
    (total : front.length + between + back.length = 8) (pos : 0 < between) :
    expand ⟨front.length + back.length - 1, front ++ back, some front.length⟩ =
      .ok (front ++ (replicate between 0 ++ back)) := by
  have ne := length_pos_iff.mpr isBack
  have suffix : front.length + back.length - 1 - front.length + 1 = back.length := by omega
  have start : 8 - back.length = front.length + between := by omega
  have few : ¬front.length + back.length ≥ 8 := by omega
  have zeros : (replicate 8 0).drop front.length =
      replicate between 0 ++ replicate back.length 0 := by
    rw [drop_replicate, ← replicate_add]
    congr 1
    omega
  simp only [expand, suffix, if_neg few, start]
  rw [take_left, drop_left, take_length, overwrite, overwrite, take_zero,
    nil_append, zero_add, zeros, ← append_assoc front, take_left',
    drop_of_length_le, append_nil, append_assoc]
  · simp only [length_append, length_replicate]
    exact le_rfl
  · rw [length_append, length_replicate]

theorem expand_none (eight : words.length = 8) : expand ⟨7, words, none⟩ = .ok words := by
  simp only [expand, overwrite, take_of_length_le eight.le, take_zero, nil_append, eight]
  rw [drop_of_length_le length_replicate.le, append_nil]

theorem parseQuartets_writes (long : IntegerType) {text : List Int} (eight : words.length = 8)
    (small : ∀ word ∈ words, word < 65536) (writes : Writes words text) :
    ∃ quartets, parseQuartets long 8 ⟨0, [], none⟩ text [] = .ok (quartets, []) ∧
      ¬(quartets.doubleColonOffset = none ∧ quartets.i < 7) ∧ expand quartets = .ok words := by
  obtain rfl | ⟨front, zeros, back, isBlock, isWords, rfl⟩ := writes
  · have ne : padded words = words := by
      unfold padded
      rw [if_neg]
      rintro rfl
      cases eight
    refine ⟨⟨7, words, none⟩, ?_, by simp, expand_none eight⟩
    rw [parseQuartets_joined small (by rw [ne, eight]), ne, eight]
    rfl
  obtain ⟨between, isSame⟩ := exists_between front back isBlock
  have whole := congrArg length isWords
  have parts := congrArg length isSame
  have frontLength := length_padded front
  have backLength := length_padded back
  simp only [length_append, length_replicate] at whole parts
  have isBack : padded back ≠ [] := by
    rw [← length_pos_iff]
    omega
  have frontSmall (word : Nat) (mem : word ∈ front) : word < 65536 := by
    apply small
    rw [isWords]
    exact mem_append_left _ mem
  have backSmall (word : Nat) (mem : word ∈ back) : word < 65536 := by
    apply small
    rw [isWords]
    exact mem_append_right _ (mem_append_right _ mem)
  refine ⟨⟨(padded front).length + (padded back).length - 1, padded front ++ padded back,
    some (padded front).length⟩, ?_, by simp, ?_⟩
  · have fuel : 8 = 8 - (padded front).length + (padded front).length := by omega
    rw [fuel, parseQuartets_joined_double frontSmall rfl, parseQuartets_joined backSmall (by omega)]
    simp only [zero_add, nil_append]
  · have total : (padded front).length + between + (padded back).length = 8 := by omega
    rw [expand_double isBack total (by omega), ← isSame, isWords]

end Mlibc.Inet
