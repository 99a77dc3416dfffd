import PatternAutomata.Language
import PatternAutomata.Node.Printer
import PatternAutomata.Proofs.CanonicalSets

/-!
Settled surrogates. No text holds a surrogate, so sets that differ in nothing else are alike to a
matcher. Of the sets that are alike, settling the surrogates picks one, and in that one no span
begins or ends with a surrogate, which has no written form.
-/

set_option autoImplicit false

namespace PatternAutomata

/-! ### What a matcher can be given -/

namespace Node

theorem feedable_iff {p : ℤ} :
    Feedable p ↔ Point.InDomain p ∧ Span.surrogates.contains p = false := by
  rw [Feedable, Point.isSome_char?_iff, ← Bool.not_eq_true, Span.contains_iff]
  simp only [Point.InDomain, Point.endOfInput, Point.top, Span.surrogates]
  omega

end Node

namespace PointSet

open Node (Feedable feedable_iff)

variable {s t : PointSet} {p : ℤ}

theorem contains_settleSurrogates_of_feedable (s : PointSet) (hp : Feedable p) :
    s.settleSurrogates.contains p = s.contains p := by
  rw [contains_settleSurrogates, (feedable_iff.1 hp).2]
  exact if_neg Bool.false_ne_true

theorem feedable_neighbours :
    Feedable (Span.surrogates.start - 1) ∧ Feedable Span.surrogates.stop := by
  simp only [feedable_iff]
  decide

/-- Settling makes sets equal just when a matcher cannot tell them apart. -/
theorem settleSurrogates_eq_iff :
    s.settleSurrogates = t.settleSurrogates ↔ ∀ p, Feedable p → s.contains p = t.contains p := by
  constructor
  · intro heq p hp
    rw [← contains_settleSurrogates_of_feedable s hp, heq,
      contains_settleSurrogates_of_feedable t hp]
  · intro halike
    refine ext_contains fun p => ?_
    rw [contains_settleSurrogates, contains_settleSurrogates]
    by_cases hp : Span.surrogates.contains p = true
    · rw [if_pos hp, if_pos hp, halike _ feedable_neighbours.1, halike _ feedable_neighbours.2]
    · rw [if_neg hp, if_neg hp]
      by_cases hdomain : Point.InDomain p
      · exact halike p (feedable_iff.2 ⟨hdomain, Bool.not_eq_true _ ▸ hp⟩)
      · have houtside : ∀ u : PointSet, u.contains p = false := fun u =>
          Bool.not_eq_true _ ▸ mt inDomain_of_contains hdomain
        rw [houtside, houtside]

theorem settleSurrogates_idem (s : PointSet) :
    s.settleSurrogates.settleSurrogates = s.settleSurrogates :=
  settleSurrogates_eq_iff.2 fun _ hp => contains_settleSurrogates_of_feedable s hp

theorem contains_next (hp : Span.surrogates.contains p = true)
    (h : s.settleSurrogates.contains p = true) :
    s.settleSurrogates.contains (p - 1) = true ∧ s.settleSurrogates.contains (p + 1) = true := by
  rw [contains_settleSurrogates, if_pos hp] at h
  obtain ⟨hlow, hhigh⟩ := Bool.and_eq_true_iff.1 h
  have hbounds := Span.contains_iff.1 hp
  constructor
  · rw [contains_settleSurrogates]
    split
    · exact h
    · rename_i hprev
      rw [Span.contains_iff] at hprev
      rwa [show p - 1 = Span.surrogates.start - 1 by omega]
  · rw [contains_settleSurrogates]
    split
    · exact h
    · rename_i hnext
      rw [Span.contains_iff] at hnext
      rwa [show p + 1 = Span.surrogates.stop by omega]

/-- No span of a settled set begins or ends with a surrogate, as it would go on beyond. -/
theorem feedable_ends {r : Span} (hr : r ∈ s.settleSurrogates.spans) :
    Feedable r.start ∧ Feedable (r.stop - 1) := by
  obtain ⟨hfirst, hlast⟩ := contains_ends hr
  obtain ⟨hbefore, hafter⟩ := not_contains_around hr
  constructor
  · refine feedable_iff.2 ⟨inDomain_of_contains hfirst, ?_⟩
    rw [← Bool.not_eq_true]
    intro hsurrogate
    rw [(contains_next hsurrogate hfirst).1] at hbefore
    cases hbefore
  · refine feedable_iff.2 ⟨inDomain_of_contains hlast, ?_⟩
    rw [← Bool.not_eq_true]
    intro hsurrogate
    have hgoes := (contains_next hsurrogate hlast).2
    rw [Int.sub_add_cancel, hafter] at hgoes
    cases hgoes

theorem isSome_char?_ends (he : s.contains Point.endOfInput = false) {r : Span}
    (hr : r ∈ s.settleSurrogates.spans) :
    (Point.char? r.start).isSome = true ∧ (Point.char? (r.stop - 1)).isSome = true := by
  have hchar : ∀ p, Feedable p → s.settleSurrogates.contains p = true →
      (Point.char? p).isSome = true := by
    intro p hp hmem
    rcases hp with rfl | hchar
    · rw [contains_settleSurrogates_of_feedable s (.inl rfl), he] at hmem
      cases hmem
    · exact hchar
  obtain ⟨hstart, hstop⟩ := feedable_ends hr
  obtain ⟨hfirst, hlast⟩ := contains_ends hr
  exact ⟨hchar _ hstart hfirst, hchar _ hstop hlast⟩

theorem not_contains_remove_endOfInput (s : PointSet) :
    (s.remove (Span.single Point.endOfInput)).contains Point.endOfInput = false := by
  have hself : (Span.single Point.endOfInput).contains Point.endOfInput = true := by decide
  rw [contains_remove, hself, Bool.not_true, Bool.and_false]

end PointSet

/-! ### The written form without a fallback -/

namespace Node

/-- Like `renderClassPoint`, but what is not a character has no written form. -/
def renderClassPoint? (p : ℤ) : Option (List Char) :=
  (Point.char? p).map fun c => if c ∈ classSpecial then ['\\', c] else renderChar c

def renderClassSpan? (r : Span) : Option (List Char) := do
  let first ← renderClassPoint? r.start
  if r.length > 1 then
    let last ← renderClassPoint? (r.stop - 1)
    return first ++ '-' :: last
  else return first

def renderClassSpans? : List Span → Option (List Char)
  | [] => some []
  | r :: rs => do return (← renderClassSpan? r) ++ (← renderClassSpans? rs)

def renderChars? (s : PointSet) : Option (List Char) :=
  if s = PointSet.codePoints then some ['.']
  else match s.char? with
    | some c => some (renderLiteral c)
    | none =>
      if s.isEmpty then
        (renderClassSpan? Span.codePoints).map fun w => '[' :: '^' :: w ++ [']']
      else (renderClassSpans? s.spans).map fun w => '[' :: w ++ [']']

def renderSet? (s : PointSet) : Option (List Char) :=
  let chars := (s.remove (Span.single Point.endOfInput)).settleSurrogates
  if s.contains Point.endOfInput then
    if chars.isEmpty then some ['(', '?', ':', '$', ')']
    else (renderChars? chars).map fun w => ['(', '?', ':'] ++ (w ++ ['|']) ++ ['$', ')']
  else renderChars? chars

theorem renderClassPoint?_eq {p : ℤ} (hp : (Point.char? p).isSome = true) :
    renderClassPoint? p = some (renderClassPoint p) := by
  obtain ⟨c, hc⟩ := Option.isSome_iff_exists.1 hp
  rw [renderClassPoint?, renderClassPoint, hc]
  rfl

theorem renderClassSpan?_eq {r : Span} (hstart : (Point.char? r.start).isSome = true)
    (hstop : (Point.char? (r.stop - 1)).isSome = true) :
    renderClassSpan? r = some (renderClassSpan r) := by
  rw [renderClassSpan?, renderClassSpan, renderClassPoint?_eq hstart, renderClassPoint?_eq hstop]
  by_cases hlength : r.length > 1
  · simp only [if_pos hlength]
    rfl
  · simp only [if_neg hlength, List.append_nil]
    rfl

theorem renderClassSpans?_eq {rs : List Span}
    (h : ∀ r ∈ rs, (Point.char? r.start).isSome = true ∧
      (Point.char? (r.stop - 1)).isSome = true) :
    renderClassSpans? rs = some (rs.flatMap renderClassSpan) := by
  induction rs with
  | nil => rfl
  | cons r rs ih =>
    obtain ⟨hr, hrs⟩ := List.forall_mem_cons.1 h
    rw [renderClassSpans?, renderClassSpan?_eq hr.1 hr.2, ih hrs, List.flatMap_cons]
    rfl

theorem renderChars?_eq {s : PointSet} (he : s.contains Point.endOfInput = false) :
    renderChars? s.settleSurrogates = some (renderChars s.settleSurrogates) := by
  rw [renderChars?, renderChars]
  split
  case isTrue => rfl
  case isFalse =>
    cases s.settleSurrogates.char? with
    | some c => rfl
    | none =>
      have hall : renderClassSpan? Span.codePoints = some (renderClassSpan Span.codePoints) :=
        renderClassSpan?_eq (by decide) (by decide)
      have hspans := renderClassSpans?_eq fun r hr => PointSet.isSome_char?_ends he hr
      simp only [hall, hspans]
      split <;> rfl

theorem renderSet?_eq (s : PointSet) : renderSet? s = some (renderSet s) := by
  have hchars := renderChars?_eq (PointSet.not_contains_remove_endOfInput s)
  simp only [renderSet?, renderSet, hchars]
  split
  case isTrue =>
    split <;> rfl
  case isFalse => rfl

end Node

/-- Settling the surrogates keeps all that a matcher can be given, changes nothing the second time,
leaves spans that begin and end with what can be given, so that the written form of a set needs no
surrogate; and of the sets that a matcher cannot tell apart it makes one. -/
theorem PointSet.settleSurrogates_canonical (s : PointSet) :
    (∀ p, Node.Feedable p → s.settleSurrogates.contains p = s.contains p) ∧
      s.settleSurrogates.settleSurrogates = s.settleSurrogates ∧
      (∀ r ∈ s.settleSurrogates.spans, Node.Feedable r.start ∧ Node.Feedable (r.stop - 1)) ∧
      Node.renderSet? s = some (Node.renderSet s) ∧
      ∀ t : PointSet, s.settleSurrogates = t.settleSurrogates ↔
        ∀ p, Node.Feedable p → s.contains p = t.contains p :=
  ⟨fun _ hp => contains_settleSurrogates_of_feedable s hp, settleSurrogates_idem s,
    fun _ hr => feedable_ends hr, Node.renderSet?_eq s, fun _ => settleSurrogates_eq_iff⟩

/-- Where a neighbour is missing all surrogates go, and where none is all come back. -/
example : ((PointSet.codePoints.remove ⟨0xDA00, 0xE001⟩).settleSurrogates.spans,
    (PointSet.codePoints.remove ⟨0xDA00, 0xDB00⟩).settleSurrogates.spans) =
      ([⟨0, 0xD800⟩, ⟨0xE001, Point.top⟩], [⟨0, Point.top⟩]) := by decide

end PatternAutomata
