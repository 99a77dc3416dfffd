import PatternAutomata.Proofs.SetSplices

/-!
A set of points has one representation: its spans are the maximal runs of members, in ascending
order. So sets made by any edits are equal just when they have the same members, which are those
that the same edits make of plain predicates.
-/

set_option autoImplicit false

namespace PatternAutomata.PointSet

variable {s t : PointSet} {r : Span} {p : ℤ}

/-! ### Boundaries -/

theorem boundaries_eq (s : PointSet) : s.boundaries =
    (s.spans.flatMap fun r => [r.start, r.stop]).filter fun p =>
      Point.endOfInput < p && p < Point.top := by
  rw [boundaries, List.filter_flatMap]
  refine List.flatMap_congr fun r hr => ?_
  have hb := s.separated.bounds r hr
  have hstart : r.start < Point.top := by omega
  have hstop : Point.endOfInput < r.stop := by omega
  by_cases h1 : Point.endOfInput < r.start <;> by_cases h2 : r.stop < Point.top <;>
    simp [hstart, hstop, h1, h2]

theorem pairwise_boundaries (s : PointSet) : s.boundaries.Pairwise (· < ·) := by
  rw [boundaries_eq]
  exact (pairwise_ends s.separated).filter _

theorem mem_boundaries_iff : p ∈ s.boundaries ↔
    Point.endOfInput < p ∧ p < Point.top ∧ s.contains (p - 1) ≠ s.contains p := by
  have hends : p ∈ s.spans.flatMap (fun r => [r.start, r.stop]) ↔
      s.contains (p - 1) ≠ s.contains p := by
    rw [List.mem_flatMap]
    constructor
    · rintro ⟨r, hr, hp⟩
      obtain ⟨hbefore, hafter⟩ := not_contains_around hr
      obtain ⟨hfirst, hlast⟩ := contains_ends hr
      rcases List.mem_pair.1 hp with rfl | rfl
      · rw [hbefore, hfirst]
        exact Bool.false_ne_true
      · rw [hlast, hafter]
        exact Bool.false_ne_true.symm
    · intro hne
      cases hp : s.contains p with
      | true =>
        rw [hp, ne_eq, Bool.not_eq_true] at hne
        obtain ⟨r, hr, h1, h2⟩ := exists_span hp
        exact ⟨r, hr, List.mem_pair.2 (.inl (start_eq hr h1 h2 hne).symm)⟩
      | false =>
        rw [hp, ne_eq, Bool.not_eq_false] at hne
        obtain ⟨r, hr, h1, h2⟩ := exists_span hne
        exact ⟨r, hr, List.mem_pair.2 (.inr (stop_eq hr (by omega) (by omega) hp).symm)⟩
  rw [boundaries_eq, List.mem_filter, hends, Bool.and_eq_true, decide_eq_true_iff,
    decide_eq_true_iff, and_comm, and_assoc]

/-! ### Edits -/

theorem any_overlaps (r : Span) (ts : List Span) (p : ℤ) :
    (overlaps r ts).any (·.contains p) = (r.contains p && ts.any (·.contains p)) := by
  have hoverlap : ∀ t : Span, (!(r.overlap t).isEmpty && (r.overlap t).contains p) =
      (r.contains p && t.contains p) := by
    intro t
    rw [← Span.contains_overlap]
    cases he : (r.overlap t).isEmpty with
    | false => rfl
    | true =>
      have hle := Span.isEmpty_iff.1 he
      rw [eq_comm, Bool.not_true, Bool.false_and, ← Bool.not_eq_true, Span.contains_iff]
      omega
  rw [overlaps, List.any_filter, List.any_map, List.and_any_distrib_left]
  exact congrArg ts.any (funext hoverlap)

theorem contains_intersect (s t : PointSet) (p : ℤ) :
    (s.intersect t).contains p = (t.contains p && s.contains p) := by
  simp only [contains, intersect, List.any_flatMap, any_overlaps]
  rw [List.and_any_distrib_left]
  simp only [Bool.and_comm]

namespace Edit

/-- An edit of a set does to its members what it does to a plain predicate. -/
theorem contains_apply (s : PointSet) {e : Edit} (he : e.Valid) :
    (e.apply s).contains = e.onMembers s.contains := by
  funext p
  cases e with
  | add r =>
    rw [apply, contains_add, onMembers]
    cases hp : r.contains p with
    | true => rw [Span.Valid.contains_domain he hp]; rfl
    | false => rfl
  | remove r => rw [apply, contains_remove, onMembers, Bool.and_comm]
  | invert r => exact contains_invert he s p
  | unite other => exact contains_unite s other p
  | intersect other => exact contains_intersect s other p
  | settleSurrogates => exact contains_settleSurrogates s p

theorem applyOver_eq_ok_iff {edit : Span → Edit} {start stop : ℤ} :
    applyOver edit start stop s = .ok t ↔
      Span.Valid ⟨start, stop⟩ ∧ (edit ⟨start, stop⟩).apply s = t := by
  rw [applyOver, Span.make]
  split
  · rename_i hv
    exact ⟨fun h => ⟨hv, Except.ok.inj h⟩, fun h => congrArg Except.ok h.2⟩
  · rename_i hv
    exact ⟨fun h => (by cases h), fun h => absurd h.1 hv⟩

end Edit

namespace Script

variable {x : Script}

theorem contains_run (h : x.run = .ok s) : s.contains = x.members := by
  induction x generalizing s with
  | empty =>
    cases h
    rfl
  | add x start stop ih | remove x start stop ih | invert x start stop ih =>
    obtain ⟨u, hu, h⟩ := ok_of_bind h
    obtain ⟨hv, rfl⟩ := Edit.applyOver_eq_ok_iff.1 h
    refine (Edit.contains_apply u ?_).trans ?_
    · exact hv
    · rw [ih hu]
      rfl
  | unite x y ihx ihy | intersect x y ihx ihy =>
    obtain ⟨u, hu, h⟩ := ok_of_bind h
    obtain ⟨v, hv, h⟩ := ok_of_bind h
    cases h
    refine (Edit.contains_apply u ?_).trans ?_
    · trivial
    · funext p
      rw [ihx hu, members, ← ihy hv]
      rfl
  | settleSurrogates x ih =>
    obtain ⟨u, hu, h⟩ := ok_of_bind h
    cases h
    refine (Edit.contains_apply u ?_).trans ?_
    · trivial
    · rw [ih hu]
      rfl

theorem exists_run_iff (x : Script) : (∃ s, x.run = .ok s) ↔ x.Valid := by
  induction x with
  | empty => exact ⟨fun _ => trivial, fun _ => ⟨_, rfl⟩⟩
  | add x start stop ih | remove x start stop ih | invert x start stop ih =>
    rw [Valid, ← ih]
    constructor
    · rintro ⟨s, h⟩
      obtain ⟨u, hu, h⟩ := ok_of_bind h
      exact ⟨⟨u, hu⟩, (Edit.applyOver_eq_ok_iff.1 h).1⟩
    · rintro ⟨⟨u, hu⟩, hv⟩
      exact ⟨_, by rw [run, hu]; exact Edit.applyOver_eq_ok_iff.2 ⟨hv, rfl⟩⟩
  | unite x y ihx ihy | intersect x y ihx ihy =>
    rw [Valid, ← ihx, ← ihy]
    constructor
    · rintro ⟨s, h⟩
      obtain ⟨u, hu, h⟩ := ok_of_bind h
      obtain ⟨v, hv, -⟩ := ok_of_bind h
      exact ⟨⟨u, hu⟩, v, hv⟩
    · rintro ⟨⟨u, hu⟩, v, hv⟩
      exact ⟨_, by rw [run, hu, hv]; rfl⟩
  | settleSurrogates x ih =>
    rw [Valid, ← ih]
    constructor
    · rintro ⟨s, h⟩
      obtain ⟨u, hu, -⟩ := ok_of_bind h
      exact ⟨u, hu⟩
    · rintro ⟨u, hu⟩
      exact ⟨_, by rw [run, hu]; rfl⟩

/-- However a set is made, its spans are in order, lie in the domain and keep apart, its members are
those that the same edits make of plain predicates, and its boundaries are where membership changes;
and it is equal to another just when the two have the same members. Splices of arrays make the same
spans, and a search by halves finds the same members. -/
theorem run_canonical (x : Script) :
    ((∃ s, x.run = .ok s) ↔ x.Valid) ∧ x.runBySplices = x.run.map (·.spans.toArray) ∧
      ∀ s, x.run = .ok s →
        (∀ r ∈ s.spans, Point.endOfInput ≤ r.start ∧ r.start < r.stop ∧ r.stop ≤ Point.top) ∧
        s.spans.Pairwise (fun r t => r.stop < t.start) ∧
        (∀ p, s.contains p = x.members p) ∧
        (∀ p, containsBySearch s.spans.toArray p = .ok (s.contains p)) ∧
        s.boundaries.Pairwise (· < ·) ∧
        (∀ p, p ∈ s.boundaries ↔
          Point.endOfInput < p ∧ p < Point.top ∧ s.contains (p - 1) ≠ s.contains p) ∧
        ∀ y t, Script.run y = .ok t → (s = t ↔ ∀ p, s.contains p = t.contains p) := by
  refine ⟨x.exists_run_iff, x.runBySplices_eq, fun s h => ⟨s.separated.bounds, s.separated.pairwise,
    fun p => congrFun (contains_run h) p, containsBySearch_eq s, s.pairwise_boundaries,
    fun p => mem_boundaries_iff, fun y t _ => ⟨fun heq p => ?_, ext_contains⟩⟩⟩
  rw [heq]

/-- Spans that touch are joined. -/
example : (add (add (add empty 1 3) 5 7) 3 5).run.map PointSet.spans = .ok [⟨1, 7⟩] := by decide

end Script

end PatternAutomata.PointSet
