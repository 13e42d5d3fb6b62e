import Mlibc.MachineInt

/-!
# Files of time zones

The model of `parse_tzfile` and `unix_local_from_gmt_tzfile`.  The memory behind the mapped file
is arbitrary.
-/

namespace Mlibc.TimeZoneFile

/-- `struct ttinfo`. -/
structure Ttinfo where
  gmtoff : Int
  isdst : Nat
  abbrind : Nat
  deriving DecidableEq

section Window

variable (win : Nat → UInt8)

/-- Four bytes with the most significant one first. -/
def beToHost (offset : Nat) : Nat :=
  (((win offset).toNat * 256 + (win (offset + 1)).toNat) * 256 +
    (win (offset + 2)).toNat) * 256 + (win (offset + 3)).toNat

def sizeofTzfile : Nat := 44

def timecnt : Nat := beToHost win 32

def typecnt : Nat := beToHost win 36

def isTzfile : Bool :=
  [win 0, win 1, win 2, win 3] = [84, 90, 105, 102] ∧ (win 4 = 0 ∨ win 4 = 50 ∨ win 4 = 51)

/-- The time of a transition. -/
def ttime (i : Nat) : Int := toInt (beToHost win (sizeofTzfile + i * 4))

def ttypeIndex (i : Nat) : UInt8 := win (sizeofTzfile + timecnt win * 4 + i)

def ttinfo (i : Nat) : Ttinfo :=
  let entry := sizeofTzfile + timecnt win * 4 + timecnt win + i * 6
  ⟨toInt (beToHost win entry), (win (entry + 4)).toNat, (win (entry + 5)).toNat⟩

def abbrevs : Nat := sizeofTzfile + timecnt win * 4 + timecnt win + typecnt win * 6

/-! ### The type of a time -/

/-- The loop over the transitions from `i` on. -/
def indexLoop (unixGmt : Int) : Nat → Nat → Int
  | 0, _ => -1
  | more + 1, i =>
    if i ≠ 0 ∧ ttime win i > unixGmt then toInt (i - 1) else indexLoop unixGmt more (i + 1)

def ttinfoIndex (unixGmt : Int) : UInt8 :=
  let index := indexLoop win unixGmt (timecnt win) 0
  if 0 ≤ index then ttypeIndex win index.toNat else 0

/-- The offset, whether it is daylight saving time and the place of the name. -/
def localType (type : Nat) : Int × Bool × Nat :=
  ((ttinfo win type).gmtoff, (ttinfo win type).isdst ≠ 0, abbrevs win + (ttinfo win type).abbrind)

def unixLocalFromGmtTzfile (unixGmt : Int) : Option (Int × Bool × Nat) :=
  if isTzfile win = true ∧ typecnt win ≠ 0 then
    some (localType win (ttinfoIndex win unixGmt).toNat)
  else none

/-- The transition is the last one up to the time. -/
def IsPeriod (unixGmt : Int) (k : Nat) : Prop :=
  k < timecnt win ∧ ttime win k ≤ unixGmt ∧ ∀ j, k < j → j < timecnt win → unixGmt < ttime win j

/-- The type of the last transition up to the time is used, and the first type before the first
transition. -/
def UsesPeriod (unixGmt : Int) : Prop :=
  (∀ k, IsPeriod win unixGmt k → ttinfoIndex win unixGmt = ttypeIndex win k) ∧
    ((∀ k, k < timecnt win → unixGmt < ttime win k) → ttinfoIndex win unixGmt = 0)

theorem beToHost_lt (offset : Nat) : beToHost win offset < 4294967296 := by
  have first := (win offset).toNat_lt
  have second := (win (offset + 1)).toNat_lt
  have third := (win (offset + 2)).toNat_lt
  have fourth := (win (offset + 3)).toNat_lt
  unfold beToHost
  omega

variable {win} {unixGmt : Int}

theorem indexLoop_none (more i : Nat)
    (passed : ∀ j, i ≤ j → j < i + more → j ≠ 0 → ttime win j ≤ unixGmt) :
    indexLoop win unixGmt more i = -1 := by
  induction more generalizing i with
  | zero => rfl
  | succ more ih =>
    rw [indexLoop, if_neg]
    · exact ih (i + 1) fun j low high => passed j (by omega) (by omega)
    · rintro ⟨notFirst, later⟩
      exact Int.not_lt.mpr (passed i (Nat.le_refl i) (by omega) notFirst) later

theorem indexLoop_found {more i j : Nat} (low : i ≤ j) (high : j < i + more) (notFirst : j ≠ 0)
    (later : unixGmt < ttime win j)
    (passed : ∀ other, i ≤ other → other < j → other ≠ 0 → ttime win other ≤ unixGmt) :
    indexLoop win unixGmt more i = toInt (j - 1) := by
  induction more generalizing i with
  | zero => omega
  | succ more ih =>
    rw [indexLoop]
    obtain rfl | below := Nat.eq_or_lt_of_le low
    · rw [if_pos ⟨notFirst, later⟩]
    · rw [if_neg]
      · exact ih below (by omega) fun other above => passed other (by omega)
      · rintro ⟨otherNotFirst, otherLater⟩
        exact Int.not_lt.mpr (passed i (Nat.le_refl i) below otherNotFirst) otherLater

section Increasing

variable (increasing : ∀ j < timecnt win, ∀ i < j, ttime win i < ttime win j)

include increasing

theorem ttime_le {i j : Nat} (le : i ≤ j) (isTransition : j < timecnt win) :
    ttime win i ≤ ttime win j := by
  obtain rfl | below := Nat.eq_or_lt_of_le le
  · exact Int.le_refl _
  · exact Int.le_of_lt (increasing j isTransition i below)

theorem ttinfoIndex_before (before : unixGmt < ttime win 0) :
    ttinfoIndex win unixGmt = if 2 ≤ timecnt win then ttypeIndex win 0 else 0 := by
  split_ifs with several
  · have index : indexLoop win unixGmt (timecnt win) 0 = toInt ((1 : Nat) - 1) :=
      indexLoop_found (by decide) (by omega) (by decide)
        (Int.lt_trans before (increasing 1 several 0 (by decide)))
        fun other _ below notFirst => absurd (Nat.lt_one_iff.mp below) notFirst
    rw [ttinfoIndex, index]
    rfl
  · rw [ttinfoIndex, indexLoop_none _ _ fun j _ _ notFirst => by omega]
    rfl

theorem ttinfoIndex_period {k : Nat} (period : IsPeriod win unixGmt k) : ttinfoIndex win unixGmt =
      if k + 1 = timecnt win ∨ 2147483648 ≤ k then 0 else ttypeIndex win k := by
  obtain ⟨isTransition, notLater, last⟩ := period
  have small : timecnt win < 4294967296 := beToHost_lt win 32
  have passed (j : Nat) (le : j ≤ k) : ttime win j ≤ unixGmt :=
    Int.le_trans (ttime_le increasing le isTransition) notLater
  by_cases isLast : k + 1 = timecnt win
  · rw [ttinfoIndex, indexLoop_none _ _ fun j _ _ _ => passed j (by omega),
      if_neg (by decide), if_pos (.inl isLast)]
  have index : indexLoop win unixGmt (timecnt win) 0 = toInt ((k + 1 : Nat) - 1) :=
    indexLoop_found (Nat.zero_le _) (by omega) (Nat.succ_ne_zero k)
      (last (k + 1) (Nat.lt_succ_self k) (by omega)) fun other _ below _ => passed other (by omega)
  rw [ttinfoIndex, index]
  by_cases large : 2147483648 ≤ k
  · have neg : ¬0 ≤ toInt ((k + 1 : Nat) - 1) := by
      unfold toInt
      omega
    rw [if_neg neg, if_pos (.inr large)]
  · have same : toInt ((k + 1 : Nat) - 1) = k := by
      unfold toInt
      omega
    rw [same, if_pos (Int.natCast_nonneg k), if_neg (by omega), Int.toNat_natCast]

/-- The type is right between the first transition and the last one.  The first transition is taken
before it, unless it is the only one, and the first type behind the last one. -/
theorem tzfile_usesPeriod_iff (valid : isTzfile win = true) (types : typecnt win ≠ 0)
    (unixGmt : Int) :
    unixLocalFromGmtTzfile win unixGmt = some (localType win (ttinfoIndex win unixGmt).toNat) ∧
      (UsesPeriod win unixGmt ↔ (unixGmt < ttime win 0 → 2 ≤ timecnt win → ttypeIndex win 0 = 0) ∧
        ∀ k, IsPeriod win unixGmt k → k + 1 = timecnt win ∨ 2147483648 ≤ k →
          ttypeIndex win k = 0) := by
  refine ⟨if_pos ⟨valid, types⟩, and_comm.trans (and_congr ⟨?_, ?_⟩ ⟨?_, ?_⟩)⟩
  · intro first before several
    rw [ttinfoIndex_before increasing before, if_pos several] at first
    exact first fun k isTransition =>
      Int.lt_of_lt_of_le before (ttime_le increasing (Nat.zero_le k) isTransition)
  · intro first all
    by_cases positive : 0 < timecnt win
    · rw [ttinfoIndex_before increasing (all 0 positive)]
      split_ifs with several
      · exact first (all 0 positive) several
      · rfl
    · rw [ttinfoIndex, indexLoop_none _ _ fun j _ _ _ => by omega]
      rfl
  · intro uses k period outside
    have := uses k period
    rw [ttinfoIndex_period increasing period, if_pos outside] at this
    exact this.symm
  · intro outside k period
    rw [ttinfoIndex_period increasing period]
    split_ifs with isOutside
    · exact (outside k period isOutside).symm
    · rfl

end Increasing

/-! ### The summary of the types -/

/-- What `parse_tzfile` sets.  The flags `found_std` and `found_dst` tell whether the names are set.
-/
structure Summary where
  tznameNormal : Option Nat
  tznameDST : Option Nat
  timezone : Option Int
  daylight : Option Int
  reads : List Nat
  deriving DecidableEq

variable (win)

/-- One pass of the loop over the type table. -/
def summaryStep (i : Nat) (summary : Summary) : Summary :=
  let timeInfo := ttinfo win i
  let summary := { summary with reads := summary.reads ++ [i] }
  let summary := if timeInfo.isdst = 0 ∧ summary.tznameNormal = none then
      { summary with
        tznameNormal := some (abbrevs win + timeInfo.abbrind)
        timezone := some (-timeInfo.gmtoff) }
    else summary
  if timeInfo.isdst ≠ 0 ∧ summary.tznameDST = none then
    { summary with
      tznameDST := some (abbrevs win + timeInfo.abbrind)
      timezone := some (-timeInfo.gmtoff)
      daylight := some 1 }
  else summary

def summaryLoop : Nat → Summary → Summary
  | 0, summary => summary
  | i + 1, summary =>
    let summary := summaryStep win (i + 1) summary
    if summary.tznameNormal ≠ none ∧ summary.tznameDST ≠ none then summary
    else summaryLoop i summary

/-- `parse_tzfile`, behind the lookup of the file.  There is no result for a file that it
refuses. -/
def parseTzfile : Option Summary :=
  if isTzfile win = true ∧ typecnt win ≠ 0 then
    some (summaryLoop win (toInt (typecnt win)).toNat ⟨none, none, none, none, []⟩)
  else none

def IsLast (dst : Bool) (k : Nat) : Prop :=
  k < typecnt win ∧ decide ((ttinfo win k).isdst ≠ 0) = dst ∧
    ∀ j, k < j → j < typecnt win → decide ((ttinfo win j).isdst ≠ 0) ≠ dst

/-- The summary is that of the last standard entry and the last daylight entry of the table. -/
structure Summarises (summary : Summary) : Prop where
  reads : ∀ k ∈ summary.reads, k < typecnt win
  standard : ∀ k, IsLast win false k →
    summary.tznameNormal = some (abbrevs win + (ttinfo win k).abbrind) ∧
      summary.timezone = some (-(ttinfo win k).gmtoff)
  daylight : ∀ k, IsLast win true k →
    summary.tznameDST = some (abbrevs win + (ttinfo win k).abbrind) ∧ summary.daylight = some 1

theorem reads_summaryStep (i : Nat) (summary : Summary) :
    (summaryStep win i summary).reads = summary.reads ++ [i] := by
  dsimp only [summaryStep]
  split_ifs <;> rfl

theorem mem_reads {k : Nat} (i : Nat) {summary : Summary} (isRead : k ∈ summary.reads) :
    k ∈ (summaryLoop win i summary).reads := by
  induction i generalizing summary with
  | zero => exact isRead
  | succ i ih =>
    have stillRead : k ∈ (summaryStep win (i + 1) summary).reads := by
      rw [reads_summaryStep]
      exact List.mem_append_left _ isRead
    dsimp only [summaryLoop]
    split_ifs
    · exact stillRead
    · exact ih stillRead

theorem last_mem_reads (i : Nat) (summary : Summary) :
    i + 1 ∈ (summaryLoop win (i + 1) summary).reads := by
  have isRead : i + 1 ∈ (summaryStep win (i + 1) summary).reads := by
    rw [reads_summaryStep]
    exact List.mem_append_right _ List.mem_cons_self
  dsimp only [summaryLoop]
  split_ifs
  · exact isRead
  · exact mem_reads win i isRead

/-- The entry behind the table is always read, unless the number of the types is not a value of
`int` and none is. -/
theorem tzfile_not_summarises (valid : isTzfile win = true) (types : typecnt win ≠ 0) :
    ¬∃ summary, parseTzfile win = some summary ∧ Summarises win summary := by
  rintro ⟨summary, parsed, summarises⟩
  rw [parseTzfile, if_pos ⟨valid, types⟩] at parsed
  rw [← Option.some.inj parsed] at summarises
  obtain ⟨last, isLast⟩ := Nat.exists_eq_succ_of_ne_zero types
  by_cases small : typecnt win < 2147483648
  · have count : (toInt (typecnt win)).toNat = last + 1 := by
      unfold toInt
      omega
    rw [count] at summarises
    have bound := summarises.reads (last + 1) (last_mem_reads win last _)
    omega
  · have count : (toInt (typecnt win)).toNat = 0 := by
      have := beToHost_lt win 36
      unfold toInt typecnt at *
      omega
    rw [count] at summarises
    have noneLater {dst : Bool} (isDst : decide ((ttinfo win last).isdst ≠ 0) = dst) :
        IsLast win dst last := ⟨by omega, isDst, fun j above isType => by omega⟩
    cases isDst : decide ((ttinfo win last).isdst ≠ 0) with
    | false => cases (summarises.standard last (noneLater isDst)).1
    | true => cases (summarises.daylight last (noneLater isDst)).1

end Window

/-! ### A file with a standard type, a daylight type and two transitions -/

def zoneFile (offset : Nat) : UInt8 :=
  ([84, 90, 105, 102] ++ (List.replicate 28 0 ++ [0, 0, 0, 2, 0, 0, 0, 2, 0, 0, 0, 9, 0, 0, 0, 100,
    0, 0, 0, 200, 1, 1, 0, 0, 14, 16, 0, 0, 0, 0, 28, 32, 1, 4, 67, 69, 84, 0, 67, 69, 83, 84,
    0]) : List UInt8).getD offset 0

theorem timecnt_zoneFile : timecnt zoneFile = 2 := by decide +kernel

theorem tzfile_usesPeriod_between : UsesPeriod zoneFile 150 := by
  have increasing : ∀ j < timecnt zoneFile, ∀ i < j, ttime zoneFile i < ttime zoneFile j := by
    decide +kernel
  refine (tzfile_usesPeriod_iff increasing (by decide +kernel) (by decide +kernel) 150).2.mpr
    ⟨fun before => absurd before (by decide +kernel), ?_⟩
  rintro k ⟨isTransition, notLater, _⟩ outside
  rw [timecnt_zoneFile] at isTransition outside
  obtain rfl : k = 1 := by omega
  exact absurd notLater (by decide +kernel)

/-- Behind the last transition, the first type is used. -/
theorem tzfile_not_usesPeriod : ttinfoIndex zoneFile 250 = 0 ∧ ¬UsesPeriod zoneFile 250 := by
  refine ⟨by decide +kernel, fun uses => ?_⟩
  have isLast : IsPeriod zoneFile 250 1 := by
    refine ⟨by decide +kernel, by decide +kernel, fun j above isTransition => ?_⟩
    rw [timecnt_zoneFile] at isTransition
    omega
  exact absurd (uses.1 1 isLast) (by decide +kernel)

theorem tzfile_not_summarises_zoneFile :
    ¬∃ summary, parseTzfile zoneFile = some summary ∧ Summarises zoneFile summary :=
  tzfile_not_summarises zoneFile (by decide +kernel) (by decide +kernel)

/-- The letters behind the table are taken for a daylight entry, and the standard entry is not
found. -/
theorem parseTzfile_zoneFile :
    parseTzfile zoneFile = some ⟨none, some 135, some (-1128616960), some 1, [2, 1]⟩ ∧
      ¬Summarises zoneFile ⟨none, some 135, some (-1128616960), some 1, [2, 1]⟩ := by
  refine ⟨by decide +kernel, fun summarises => ?_⟩
  exact absurd (summarises.reads 2 (by decide)) (by decide +kernel)

end Mlibc.TimeZoneFile
