import Mlibc.Realpath

/-! # The buffers of `realpath` -/

namespace Mlibc.Realpath

open PathString List

variable {text whole segment : PathString} {place : Nat} {link pending : List PathString}
  {bufs : Buffers} {loc names : List PathString}

section Strings

theorem stringAt_terminator (unterminated : terminator ∉ text) (more : List Char) :
    stringAt (text ++ terminator :: more) = text := by
  have holds : ∀ character ∈ text, decide (character ≠ terminator) = true := by
    intro character mem
    exact decide_eq_true (fun isTerminator => unterminated (isTerminator ▸ mem))
  rw [stringAt, takeWhile_append_of_pos holds, takeWhile_cons_of_neg (by decide), append_nil]

theorem takeWhile_slash {first : PathString} (unbroken : '/' ∉ first) (rest : PathString) :
    (first ++ '/' :: rest).takeWhile (· ≠ '/') = first := by
  have holds : ∀ character ∈ first, decide (character ≠ '/') = true := by
    intro character mem
    exact decide_eq_true (fun isSlash => unbroken (isSlash ▸ mem))
  rw [takeWhile_append_of_pos holds, takeWhile_cons_of_neg (by decide), append_nil]

theorem lastSlash_append {front last : PathString} (frontUnterminated : terminator ∉ front)
    (lastUnterminated : terminator ∉ last) (unbroken : '/' ∉ last) :
    lastSlash (front ++ '/' :: last ++ [terminator]) = some front.length := by
  have unterminated : terminator ∉ front ++ '/' :: last := by
    rw [mem_append, mem_cons, not_or, not_or]
    exact ⟨frontUnterminated, by decide, lastUnterminated⟩
  have isReverse : (front ++ '/' :: last).reverse = last.reverse ++ '/' :: front.reverse := by
    rw [reverse_append, reverse_cons, append_assoc, singleton_append]
  have notBefore : '/' ∉ last.reverse := by rwa [mem_reverse]
  rw [lastSlash, stringAt_terminator unterminated, if_pos (by simp), isReverse,
    idxOf_append_of_notMem notBefore, idxOf_cons_self, length_reverse,
    length_append, length_cons]
  congr 1
  omega

end Strings

section Offsets

/-- The offset into a text leaves some components to come.  It is at most one behind the end of
the text. -/
inductive Remaining (whole : PathString) : Nat → List PathString → Prop
  | within {before text : PathString} (isWhole : whole = before ++ text) :
      Remaining whole before.length (components text)
  | consumed : Remaining whole (whole.length + 1) []

theorem Remaining.start (whole : PathString) : Remaining whole 0 (components whole) :=
  Remaining.within (nil_append whole).symm

theorem components_ne_nil (text : PathString) : components text ≠ [] := splitOn_ne_nil _ _

theorem Remaining.eq_of_nil (remaining : Remaining whole place []) : place = whole.length + 1 := by
  generalize isNothing : ([] : List PathString) = nothing at remaining
  cases remaining with
  | within isWhole => exact absurd isNothing.symm (components_ne_nil _)
  | consumed => rfl

theorem Remaining.place_le (remaining : Remaining whole place (segment :: pending)) :
    place ≤ whole.length := by
  generalize isMore : segment :: pending = more at remaining
  cases remaining with
  | within isWhole =>
    rw [isWhole, length_append]
    exact Nat.le_add_right _ _
  | consumed => cases isMore

theorem Remaining.eq_nil_of_le (remaining : Remaining whole place (segment :: pending))
    (atEnd : whole.length ≤ place) : segment = [] ∧ pending = [] := by
  generalize isMore : segment :: pending = upcoming at remaining
  cases remaining with
  | consumed => cases isMore
  | @within before text isWhole =>
    rw [isWhole, length_append] at atEnd
    have isNil : text = [] := eq_nil_of_length_eq_zero (by omega)
    rw [isNil] at isMore
    cases isMore
    exact ⟨rfl, rfl⟩

theorem Remaining.place_le_succ (remaining : Remaining whole place pending) :
    place ≤ whole.length + 1 := by
  cases remaining with
  | within isWhole =>
    rw [isWhole, length_append]
    omega
  | consumed => exact le_rfl

variable (remaining : Remaining whole place (segment :: pending))
  (unterminated : terminator ∉ whole)

include remaining unterminated

theorem Remaining.next_unbroken : '/' ∉ segment ∧ terminator ∉ segment := by
  generalize isMore : segment :: pending = upcoming at remaining
  cases remaining with
  | consumed => cases isMore
  | @within before text isWhole =>
    obtain unbroken | ⟨first, rest, unbroken, isText⟩ := unbroken_or_slash text
    · rw [components_of_unbroken unbroken] at isMore
      cases isMore
      exact ⟨unbroken, fun mem => unterminated (isWhole ▸ mem_append_right _ mem)⟩
    rw [isText, components_append_slash unbroken] at isMore
    cases isMore
    refine ⟨unbroken, fun mem => unterminated ?_⟩
    rw [isWhole, isText]
    exact mem_append_right _ (mem_append_left _ mem)

theorem Remaining.next (more : List Char) :
    segmentAt (whole ++ terminator :: more) place = some segment ∧
      Remaining whole (place + segment.length + 1) pending := by
  generalize isMore : segment :: pending = upcoming at remaining
  cases remaining with
  | consumed => cases isMore
  | @within before text isWhole =>
    have textUnterminated : terminator ∉ text := by
      intro mem
      exact unterminated (isWhole ▸ mem_append_right _ mem)
    have isRest : (whole ++ terminator :: more).drop before.length =
        text ++ terminator :: more := by
      rw [isWhole, append_assoc, drop_left]
    rw [segmentAt, isRest, stringAt_terminator textUnterminated, stringAt_terminator unterminated]
    obtain unbroken | ⟨first, rest, unbroken, isText⟩ := unbroken_or_slash text
    · rw [components_of_unbroken unbroken] at isMore
      cases isMore
      have isLength : whole.length = before.length + segment.length := by
        rw [isWhole, length_append]
      rw [if_neg unbroken, if_pos (by omega), isLength, Nat.add_sub_cancel_left,
        take_left, ← isLength]
      exact ⟨rfl, .consumed⟩
    rw [isText, components_append_slash unbroken] at isMore
    cases isMore
    rw [if_pos (by simp [isText]), isText, takeWhile_slash unbroken]
    have behind : whole = (before ++ segment ++ ['/']) ++ rest := by
      rw [isWhole, isText, append_assoc, append_assoc, singleton_append]
    have isPlace : before.length + segment.length + 1 = (before ++ segment ++ ['/']).length := by
      rw [length_append, length_append, length_singleton]
    rw [isPlace]
    exact ⟨rfl, .within behind⟩

end Offsets

section Meaning

/-- The text of links that is left stands for the components. -/
inductive Unread (lnk : List Char) (ls : Nat) (link : List PathString) : Prop
  | none (isEmpty : lnk = []) (isStart : ls = 0) (isNothing : link = [])
  | text {whole : PathString} (unterminated : terminator ∉ whole)
      (isText : lnk = whole ++ [terminator]) (remaining : Remaining whole ls link)

theorem Unread.finished {lnk : List Char} {ls : Nat} (unread : Unread lnk ls []) :
    lnk.length = ls := by
  cases unread with
  | none isEmpty isStart isNothing => rw [isEmpty, isStart, length_nil]
  | text unterminated isText remaining =>
    rw [isText, length_append]
    exact remaining.eq_of_nil.symm

/-- The buffers stand for a location and the components of links that are to come. -/
structure Holds (bufs : Buffers) (loc link : List PathString) : Prop where
  resolv : bufs.resolv = render loc ++ [terminator]
  unread : Unread bufs.lnk bufs.ls link

def ProperNames (names : List PathString) : Prop := ∀ name ∈ names, ProperName name

theorem unterminated_render (proper : ProperNames names) : terminator ∉ render names := by
  intro mem
  obtain ⟨name, isName, inside⟩ := mem_flatMap.mp mem
  cases mem_cons.mp inside with
  | inl isSlash => exact absurd isSlash (by decide)
  | inr inName => exact (proper name isName).unterminated inName

theorem ProperNames.concat (proper : ProperNames names) (properSegment : ProperName segment) :
    ProperNames (names ++ [segment]) := by
  intro name mem
  cases mem_append.mp mem with
  | inl inNames => exact proper name inNames
  | inr isSegment => exact mem_singleton.mp isSegment ▸ properSegment

theorem appendSegment_resolv (isLocation : bufs.resolv = render loc ++ [terminator]) :
    (appendSegment segment bufs).resolv = render (loc ++ [segment]) ++ [terminator] := by
  have isEnd : (render loc ++ [terminator]).length - 1 = (render loc).length := by
    rw [length_append, length_singleton, Nat.add_sub_cancel]
  change bufs.resolv.set (bufs.resolv.length - 1) '/' ++ segment ++ [terminator] = _
  rw [isLocation, isEnd, set_append_right _ _ le_rfl, Nat.sub_self, set_cons_zero,
    render_concat, append_assoc (render loc), singleton_append]

theorem removeSegment_holds (holds : Holds bufs loc link) (proper : ProperNames loc) :
    ∃ removed, removeSegment bufs = .ok removed ∧ Holds removed loc.dropLast link := by
  cases loc using reverseRecOn with
  | nil =>
    have short : ¬ bufs.resolv.length > 1 := by
      rw [holds.resolv]
      decide
    exact ⟨bufs, if_neg short, holds⟩
  | append_singleton loc name =>
    have isName : ProperName name := proper name (mem_append_right _ mem_cons_self)
    have before : ProperNames loc :=
      fun other mem => proper other (mem_append_left _ mem)
    have isResolv : bufs.resolv = render loc ++ '/' :: name ++ [terminator] := by
      rw [holds.resolv, render_concat]
    have long : bufs.resolv.length > 1 := by
      rw [isResolv, length_append, length_append, length_cons, length_singleton]
      omega
    have isSlash : lastSlash bufs.resolv = some (render loc).length := by
      rw [isResolv]
      exact lastSlash_append (unterminated_render before) isName.unterminated isName.unbroken
    have isCut : (bufs.resolv.take ((render loc).length + 1)).set
        (render loc).length terminator = render loc ++ [terminator] := by
      rw [isResolv, append_assoc, take_length_add_append, cons_append,
        take_succ_cons, take_zero, set_append_right _ _ le_rfl,
        Nat.sub_self, set_cons_zero]
    refine ⟨{ bufs with resolv := render loc ++ [terminator] }, ?_, ?_⟩
    · rw [removeSegment, if_pos long, isSlash]
      exact congrArg (fun resolv => Except.ok { bufs with resolv }) isCut
    · rw [dropLast_concat]
      exact ⟨rfl, holds.unread⟩

end Meaning

end Mlibc.Realpath
