import Mlibc.Inet

/-! # The text of an address -/

namespace Mlibc.Inet

open IntegerText NumeralText StringToInteger List

def wordsFrom (src : In6Addr) (i : Nat) : List Nat :=
  (List.range' i (8 - i)).map (quartet src)

def joinedBehind (words : List Nat) : List Int :=
  words.flatMap fun word => colon :: numberText 16 word

def joined : List Nat → List Int
  | [] => []
  | word :: words => numberText 16 word ++ joinedBehind words

def Writes (words : List Nat) (text : List Int) : Prop :=
  text = joined words ∨
    ∃ front zeros back, 2 ≤ zeros ∧ words = front ++ (List.replicate zeros 0 ++ back) ∧
      text = joined front ++ colon :: colon :: joined back

def separated (dst : List Int) : List Int :=
  if dst ≠ [] ∧ dst.getLast? ≠ some colon then dst ++ [colon] else dst

def appended : List Int → List Nat → List Int
  | dst, [] => dst
  | dst, word :: words => appended (separated dst ++ numberText 16 word) words

def quartetText (src : In6Addr) (block : Zeroes) : Nat → Nat → List Int → List Int
  | 0, _, dst => dst
  | fuel + 1, i, dst =>
    if i < 8 then
      if i = block.maxOff ∧ block.maxLen ≥ 2 then
        quartetText src block fuel (i + (block.maxLen - 1) + 1) (dst ++ [colon, colon])
      else
        quartetText src block fuel (i + 1) (separated dst ++ numberText 16 (quartet src i))
    else dst

section Size

variable {src : In6Addr} {block : Zeroes} {size : Nat}

theorem snprintf_printed (dst : List Int) : (match snprintf size dst with
      | some dst => Printed.text dst
      | none => .fails .enospc) = if dst.length < size then .text dst else .fails .enospc := by
  unfold snprintf
  split_ifs <;> rfl

variable {dst : List Int}

theorem ite_eq_text_iff {text : List Int} {other : Printed} (noText : other ≠ .text text) :
    (if dst.length < size then .text dst else other) = .text text ↔
      text = dst ∧ text.length < size := by
  split_ifs with fits
  · rw [Printed.text.injEq]
    constructor
    · rintro rfl
      exact ⟨rfl, fits⟩
    · exact fun both => both.1.symm
  · apply iff_of_false noText
    rintro ⟨rfl, small⟩
    exact fits small

theorem put_of_lt {c : Int} (room : dst.length < size) : put size dst c = dst ++ [c] := if_pos room

theorem put_of_le {c : Int} (full : size ≤ dst.length) :
    put size dst c = dst := if_neg (Nat.not_lt_of_le full)

theorem length_le_separated (dst : List Int) : dst.length ≤ (separated dst).length := by
  unfold separated
  split_ifs
  · rw [length_append]
    omega
  · exact le_rfl

variable (src block) in
theorem length_le_quartetText (fuel i : Nat) (dst : List Int) :
    dst.length ≤ (quartetText src block fuel i dst).length := by
  induction fuel generalizing i dst with
  | zero => exact le_rfl
  | succ fuel ih =>
    unfold quartetText
    split_ifs
    · have longer := ih (i + (block.maxLen - 1) + 1) (dst ++ [colon, colon])
      rw [length_append] at longer
      omega
    · have longer := ih (i + 1) (separated dst ++ numberText 16 (quartet src i))
      have apart := length_le_separated dst
      rw [length_append] at longer
      omega
    · exact le_rfl

theorem printQuartets_block {fuel i : Nat} (dst : List Int) (inside : i < 8)
    (here : i = block.maxOff ∧ block.maxLen ≥ 2) :
    printQuartets src block size (fuel + 1) i dst =
      printQuartets src block size fuel (i + (block.maxLen - 1) + 1)
        (put size (put size dst colon) colon) := by
  rw [printQuartets, if_pos inside, if_pos here]

theorem printQuartets_outside {fuel i : Nat} (outside : ¬i < 8) (dst : List Int) :
    printQuartets src block size fuel i dst = finish size dst := by
  cases fuel with
  | zero => rfl
  | succ fuel => exact if_neg outside

theorem quartetText_outside {fuel i : Nat} (outside : ¬i < 8) (dst : List Int) :
    quartetText src block fuel i dst = dst := by
  cases fuel with
  | zero => rfl
  | succ fuel => exact if_neg outside

theorem printQuartets_quartet {apart : List Int} {fuel i : Nat} (inside : i < 8)
    (notHere : ¬(i = block.maxOff ∧ block.maxLen ≥ 2))
    (isApart : (if dst ≠ [] ∧ dst.getLast? ≠ some colon then put size dst colon else dst) = apart) :
    printQuartets src block size (fuel + 1) i dst =
      if (numberText 16 (quartet src i)).length < size - apart.length then
        printQuartets src block size fuel (i + 1) (apart ++ numberText 16 (quartet src i))
      else .fails .enospc := by
  rw [printQuartets]
  simp only [isApart, snprintf]
  split_ifs <;> rfl

/-- The loop is not behind the block of zeros, and the block ends the address. -/
def blockLast (block : Zeroes) (i : Nat) : Bool :=
  block.maxLen ≥ 2 ∧ i ≤ block.maxOff ∧ block.maxOff < 8 ∧ 8 ≤ block.maxOff + block.maxLen

theorem printQuartets_full {fuel i : Nat} (enough : 8 ≤ i + fuel) (full : size ≤ dst.length) :
    printQuartets src block size fuel i dst =
      if 8 ≤ i ∨ i = block.maxOff ∧ blockLast block i then .overruns else .fails .enospc := by
  have ends : finish size dst = .overruns := if_neg (not_lt.mpr full)
  simp only [blockLast, decide_eq_true_eq]
  induction fuel generalizing i with
  | zero => rw [if_pos (.inl enough), printQuartets, ends]
  | succ fuel ih =>
    by_cases inside : i < 8
    · by_cases here : i = block.maxOff ∧ block.maxLen ≥ 2
      · rw [printQuartets_block dst inside here, put_of_le full, put_of_le full, ih (by omega)]
        exact if_congr (by omega) rfl rfl
      · rw [printQuartets_quartet inside here (by rw [put_of_le full, ite_self]),
          if_neg (by omega), if_neg (by omega)]
    · rw [printQuartets_outside inside, ends, if_pos (.inl (not_lt.mp inside))]

variable (src) in
theorem length_quartetText {fuel i : Nat} (enough : 8 ≤ i + fuel) (last : blockLast block i = true)
    (dst : List Int) :
    dst.length + 2 ≤ (quartetText src block fuel i dst).length := by
  simp only [blockLast, decide_eq_true_eq] at last
  induction fuel generalizing i dst with
  | zero => omega
  | succ fuel ih =>
    unfold quartetText
    rw [if_pos (by omega)]
    split_ifs
    · have longer := length_le_quartetText src block fuel (i + (block.maxLen - 1) + 1)
        (dst ++ [colon, colon])
      rw [length_append] at longer
      exact longer
    have next : 8 ≤ i + 1 + fuel := by omega
    have longer := ih next (separated dst ++ numberText 16 (quartet src i)) (by omega)
    have apart := length_le_separated dst
    rw [length_append] at longer
    omega

/-- A text that does not fit is refused, except when only its last two colons do not. -/
theorem printQuartets_eq {fuel i : Nat} (enough : 8 ≤ i + fuel) (room : dst.length < size) :
    printQuartets src block size fuel i dst =
      if (quartetText src block fuel i dst).length < size then
        .text (quartetText src block fuel i dst)
      else if blockLast block i ∧ (quartetText src block fuel i dst).length < size + 2 then
        .overruns
      else .fails .enospc := by
  have behind : ∀ k, block.maxOff < k → blockLast block k = false :=
    fun k later => decide_eq_false fun last => not_le.mpr later last.2.1
  induction fuel generalizing i dst with
  | zero => exact (if_pos room).trans (if_pos room).symm
  | succ fuel ih =>
    by_cases inside : i < 8
    · by_cases here : i = block.maxOff ∧ block.maxLen ≥ 2
      · have later := behind (i + (block.maxLen - 1) + 1) (by omega)
        have longer := length_le_quartetText src block fuel (i + (block.maxLen - 1) + 1)
          (dst ++ [colon, colon])
        rw [printQuartets_block dst inside here, put_of_lt room, quartetText, if_pos inside,
          if_pos here]
        have colons : if (dst ++ [colon, colon]).length < size then
            put size (dst ++ [colon]) colon = dst ++ [colon, colon]
            else size ≤ (put size (dst ++ [colon]) colon).length := by
          simp only [put, length_append, length_cons, length_nil]
          split_ifs <;> simp <;> omega
        by_cases ends : i + (block.maxLen - 1) + 1 < 8
        · have notLast : blockLast block i = false := decide_eq_false (by omega)
          rw [notLast]
          split_ifs at colons with fits
          · rw [colons, ih (by omega) fits, later]
          · rw [printQuartets_full (by omega) colons, if_neg (by omega), if_neg (by omega),
              if_neg (by simp)]
        have last : blockLast block i = true := decide_eq_true (by omega)
        rw [printQuartets_outside ends, quartetText_outside ends, last]
        split_ifs at colons with fits
        · rw [colons, if_pos fits]
          exact if_pos fits
        have short : (dst ++ [colon, colon]).length < size + 2 := by
          rw [length_append]
          exact Nat.add_lt_add_right room 2
        rw [if_neg fits, if_pos ⟨rfl, short⟩]
        exact if_neg (not_lt.mpr colons)
      · have apart : (if dst ≠ [] ∧ dst.getLast? ≠ some colon then put size dst colon else dst) =
            separated dst := by
          rw [put_of_lt room]
          rfl
        have same : blockLast block i = blockLast block (i + 1) := by
          simp only [blockLast, decide_eq_decide]
          omega
        rw [printQuartets_quartet inside here apart, quartetText, if_pos inside, if_neg here, same]
        by_cases fits : (separated dst ++ numberText 16 (quartet src i)).length < size
        · rw [if_pos (by rw [length_append] at fits; omega), ih (by omega) fits]
        have long := length_le_quartetText src block fuel (i + 1)
          (separated dst ++ numberText 16 (quartet src i))
        rw [if_neg (by rw [length_append] at fits; omega), if_neg (by omega), if_neg]
        rintro ⟨last, short⟩
        have longer := length_quartetText src (by omega : 8 ≤ i + 1 + fuel) last
          (separated dst ++ numberText 16 (quartet src i))
        omega
    · rw [printQuartets_outside inside, quartetText_outside inside, if_pos room]
      exact if_pos room

end Size

section Words

variable {src : In6Addr}

theorem wordsFrom_succ {i : Nat} (inside : i < 8) :
    wordsFrom src i = quartet src i :: wordsFrom src (i + 1) := by
  have count : 8 - i = 8 - (i + 1) + 1 := by omega
  rw [wordsFrom, count]
  rfl

theorem wordsFrom_outside {i : Nat} (outside : ¬i < 8) : wordsFrom src i = [] := by
  have count : 8 - i = 0 := by omega
  rw [wordsFrom, count]
  rfl

theorem colon_not_mem_numberText (word : Nat) : colon ∉ numberText 16 word := by
  intro mem
  have digit := isDigitOf_numberText (by decide) (by decide) word colon mem
  exact absurd digit (by decide)

theorem getLast?_numberText (dst : List Int) (word : Nat) :
    (dst ++ numberText 16 word).getLast? ≠ some colon := by
  intro last
  rw [getLast?_append_of_ne_nil _ (numberText_ne_nil word)] at last
  exact colon_not_mem_numberText word (mem_of_getLast? last)

theorem appended_behind (dst : List Int) (word : Nat) (words : List Nat) :
    appended (dst ++ numberText 16 word) words =
      dst ++ numberText 16 word ++ joinedBehind words := by
  induction words generalizing dst word with
  | nil => exact (append_nil _).symm
  | cons next words ih =>
    have ne : dst ++ numberText 16 word ≠ [] :=
      append_ne_nil_of_right_ne_nil _ (numberText_ne_nil word)
    rw [appended, separated, if_pos ⟨ne, getLast?_numberText dst word⟩, ih, joinedBehind,
      joinedBehind, flatMap_cons]
    simp only [append_assoc, cons_append, nil_append]

theorem appended_joined {dst : List Int} (plain : ¬(dst ≠ [] ∧ dst.getLast? ≠ some colon))
    (words : List Nat) : appended dst words = dst ++ joined words := by
  cases words with
  | nil => exact (append_nil dst).symm
  | cons word words => rw [appended, separated, if_neg plain, appended_behind, joined, append_assoc]

end Words

section Block

variable {src : In6Addr} {block : Zeroes}

theorem quartetText_plain {fuel i : Nat} (enough : 8 ≤ i + fuel)
    (noBlock : ∀ k, i ≤ k → ¬(k = block.maxOff ∧ block.maxLen ≥ 2)) (dst : List Int) :
    quartetText src block fuel i dst = appended dst (wordsFrom src i) := by
  induction fuel generalizing i dst with
  | zero =>
    rw [wordsFrom_outside (by omega)]
    rfl
  | succ fuel ih =>
    unfold quartetText
    split_ifs with inside here
    · exact absurd here (noBlock i le_rfl)
    · rw [ih (by omega) (fun k after => noBlock k (by omega)), wordsFrom_succ inside]
      rfl
    · rw [wordsFrom_outside inside]
      rfl

theorem quartetText_block {fuel i : Nat} (enough : 8 ≤ i + fuel) (begins : i ≤ block.maxOff)
    (isBlock : block.maxLen ≥ 2) (inside : block.maxOff + block.maxLen ≤ 8) (dst : List Int) :
    quartetText src block fuel i dst =
      appended (appended dst ((range' i (block.maxOff - i)).map (quartet src)) ++
        [colon, colon]) (wordsFrom src (block.maxOff + block.maxLen)) := by
  induction fuel generalizing i dst with
  | zero => omega
  | succ fuel ih =>
    unfold quartetText
    rw [if_pos (by omega)]
    split_ifs with here
    · have next : i + (block.maxLen - 1) + 1 = block.maxOff + block.maxLen := by omega
      have none : block.maxOff - i = 0 := by omega
      rw [next, none, quartetText_plain (by omega)]
      · rfl
      · omega
    · have before : block.maxOff - i = block.maxOff - (i + 1) + 1 := by omega
      rw [ih (by omega) (by omega), before]
      rfl

end Block

section Zeros

variable (src : In6Addr)

theorem quartet_eq (i : Nat) :
    quartet src i = (byteAt src (i * 2)).toNat * 256 + (byteAt src (i * 2 + 1)).toNat := by
  have small := (byteAt src (i * 2 + 1)).toNat_lt
  rw [quartet, ← Nat.shiftLeft_add_eq_or_of_lt small, Nat.shiftLeft_eq]

theorem quartet_lt (i : Nat) : quartet src i < 65536 := by
  have high := (byteAt src (i * 2)).toNat_lt
  have low := (byteAt src (i * 2 + 1)).toNat_lt
  rw [quartet_eq]
  omega

/-- The blocks of zeros that the loop has found in front of an index. -/
structure Zeroes.Holds (i : Nat) (zeroes : Zeroes) : Prop where
  current : zeroes.curOff + zeroes.curLen = i
  currentZero : ∀ k, zeroes.curOff ≤ k → k < i → quartet src k = 0
  inside : 2 ≤ zeroes.maxLen → zeroes.maxOff + zeroes.maxLen ≤ i
  zero : 2 ≤ zeroes.maxLen → ∀ k, zeroes.maxOff ≤ k → k < zeroes.maxOff + zeroes.maxLen →
    quartet src k = 0

variable {src}

theorem Zeroes.Holds.step {i : Nat} {zeroes : Zeroes} (holds : zeroes.Holds src i) :
    (zeroes.step src i).Holds src (i + 1) := by
  obtain ⟨current, currentZero, inside, zero⟩ := holds
  unfold Zeroes.step
  split_ifs with isZero
  · have here : quartet src i = 0 := by
      rw [quartet_eq, isZero.1, isZero.2]
      rfl
    have longer : ∀ k, zeroes.curOff ≤ k → k < i + 1 → quartet src k = 0 := by
      intro k after before
      by_cases last : k = i
      · rw [last, here]
      · exact currentZero k after (by omega)
    dsimp only
    split_ifs
    · constructor
      · dsimp only
        omega
      · exact longer
      · dsimp only
        omega
      · intro _ k after before
        dsimp only at after before
        exact longer k after (by omega)
    · constructor
      · dsimp only
        omega
      · exact longer
      · intro isBlock
        have bound := inside isBlock
        dsimp only
        omega
      · exact zero
  · constructor
    · rfl
    · intro k after before
      dsimp only at after
      omega
    · intro isBlock
      have bound := inside isBlock
      dsimp only
      omega
    · exact zero

theorem zeroes_holds (src : In6Addr) : (zeroes src).Holds src 8 := by
  have run (n : Nat) : ((range n).foldl (Zeroes.step src) ⟨0, 0, 0, 0⟩).Holds src n := by
    induction n with
    | zero =>
      constructor
      · rfl
      · intro k _ before
        exact absurd before (Nat.not_lt_zero k)
      · intro isBlock
        exact absurd isBlock (Nat.not_succ_le_zero 1)
      · intro isBlock
        exact absurd isBlock (Nat.not_succ_le_zero 1)
    | succ n ih =>
      rw [range_succ, foldl_append]
      exact ih.step
  exact run 8

theorem range_eq_append {start length : Nat} (inside : start + length ≤ 8) :
    range' 0 8 = range' 0 start ++
        (range' start length ++ range' (start + length) (8 - (start + length))) := by
  have back : range' start length ++ range' (start + length) (8 - (start + length)) =
        range' start (length + (8 - (start + length))) := range'_append_1
  have whole : range' 0 start ++ range' (0 + start) (length + (8 - (start + length))) =
        range' 0 (start + (length + (8 - (start + length)))) := range'_append_1
  rw [zero_add] at whole
  rw [back, whole]
  congr 1
  omega

theorem quartetText_writes (src : In6Addr) :
    Writes (wordsFrom src 0) (quartetText src (zeroes src) 8 0 []) := by
  have plain : ¬(([] : List Int) ≠ [] ∧ [].getLast? ≠ some colon) := fun both => both.1 rfl
  by_cases isBlock : 2 ≤ (zeroes src).maxLen
  · obtain ⟨_, _, inside, zero⟩ := zeroes_holds src
    have inside := inside isBlock
    have zero := zero isBlock
    generalize (zeroes src) = block at isBlock inside zero ⊢
    have behind (front : List Int) :
        ¬(front ++ [colon, colon] ≠ [] ∧ (front ++ [colon, colon]).getLast? ≠ some colon) := by
      intro both
      apply both.2
      rw [getLast?_append_of_ne_nil _ (by simp)]
      rfl
    right
    refine ⟨(range' 0 block.maxOff).map (quartet src), block.maxLen,
      wordsFrom src (block.maxOff + block.maxLen), isBlock, ?_, ?_⟩
    · have zeros : (range' block.maxOff block.maxLen).map (quartet src) =
          replicate block.maxLen 0 := by
        rw [eq_replicate_iff]
        constructor
        · rw [length_map, length_range']
        intro word mem
        obtain ⟨k, place, rfl⟩ := mem_map.mp mem
        obtain ⟨after, before⟩ := mem_range'_1.mp place
        exact zero k after before
      rw [← zeros, wordsFrom, wordsFrom, ← map_append, ← map_append]
      rw [← range_eq_append inside]
    · rw [quartetText_block (by decide) (Nat.zero_le _) isBlock inside, appended_joined plain,
        appended_joined (behind _)]
      simp only [nil_append, append_assoc, cons_append, Nat.sub_zero]
  · left
    rw [quartetText_plain (by decide) (fun k _ both => isBlock both.2), appended_joined plain,
      nil_append]

end Zeros

end Mlibc.Inet
