import PatternAutomata.PointSet
import PatternAutomata.Proofs.Collections
import Mathlib.Data.Int.Notation

/-!
Points of the domain, the sets of a single one, and membership after the operations on two sets. The
spans of a set are as long as they can be (`not_contains_around`).
-/

set_option autoImplicit false

namespace PatternAutomata

namespace Point

theorem inDomain_endOfInput : InDomain endOfInput := by decide

theorem inDomain_ofChar (c : Char) : InDomain (ofChar c) := by
  have h : c.toNat < 0x110000 := by
    rcases c.valid with h | ⟨-, h⟩
    · exact Nat.lt_trans h (by decide)
    · exact h
  simp only [InDomain, endOfInput, top, ofChar]
  omega

theorem toNat_ofNat {n : Nat} (h : n.isValidChar) : (Char.ofNat n).toNat = n := by
  rw [Char.ofNat, dif_pos h]
  rfl

theorem ofChar_nonneg (c : Char) : 0 ≤ ofChar c := Int.natCast_nonneg _

theorem isSome_char?_iff {p : ℤ} :
    (char? p).isSome = true ↔ (0 ≤ p ∧ p < 0xD800) ∨ (0xE000 ≤ p ∧ p < top) := by
  have hchar : (char? p).isSome = true ↔ 0 ≤ p ∧ p.toNat.isValidChar := by
    by_cases hvalid : 0 ≤ p ∧ p.toNat.isValidChar
    · rw [char?, dif_pos hvalid]
      exact ⟨fun _ => hvalid, fun _ => rfl⟩
    · rw [char?, dif_neg hvalid]
      exact ⟨fun h => (by cases h), fun h => absurd h hvalid⟩
  rw [hchar]
  simp only [Nat.isValidChar, top]
  omega

theorem ofChar_ne_endOfInput (c : Char) : ofChar c ≠ endOfInput := by
  simp only [ofChar, endOfInput]
  omega

end Point

namespace PointSet

theorem inDomain_of_contains {s : PointSet} {p : ℤ} (h : s.contains p = true) :
    Point.InDomain p := by
  obtain ⟨r, hr, hp⟩ := List.any_eq_true.1 h
  have hb := s.separated.bounds r hr
  rw [Span.contains_iff] at hp
  exact ⟨by omega, by omega⟩

theorem contains_foldl_add (s : PointSet) (rs : List Span) (p : ℤ) :
    (rs.foldl add s).contains p =
      ((rs.any (·.contains p) && Span.domain.contains p) || s.contains p) := by
  induction rs generalizing s with
  | nil => simp
  | cons r rs ih =>
    rw [List.foldl_cons, ih, contains_add, List.any_cons, Bool.and_or_distrib_right]
    ac_rfl

theorem contains_foldl_remove (s : PointSet) (rs : List Span) (p : ℤ) :
    (rs.foldl remove s).contains p = (s.contains p && !rs.any (·.contains p)) := by
  induction rs generalizing s with
  | nil => simp
  | cons r rs ih => simp [ih, contains_remove, Bool.and_assoc]

theorem contains_unite (s t : PointSet) (p : ℤ) :
    (s.unite t).contains p = (t.contains p || s.contains p) := by
  rw [unite, contains_foldl_add]
  change ((t.contains p && _) || _) = _
  rcases h : t.contains p
  · simp
  · have := inDomain_of_contains h
    have : Span.domain.contains p = true := Span.contains_iff.2 this
    simp [this]

theorem contains_subtract (s t : PointSet) (p : ℤ) :
    (s.subtract t).contains p = (s.contains p && !t.contains p) :=
  contains_foldl_remove s t.spans p

theorem contains_ofSpan (r : Span) (p : ℤ) :
    (ofSpan r).contains p = (r.contains p && Span.domain.contains p) := by
  rw [ofSpan, contains_add, contains_empty, Bool.or_false]

theorem contains_ofSpans (rs : List Span) (p : ℤ) :
    (ofSpans rs).contains p = (rs.any (·.contains p) && Span.domain.contains p) := by
  rw [ofSpans, contains_foldl_add, contains_empty, Bool.or_false]

theorem contains_codePoints (p : ℤ) : codePoints.contains p = true ↔ 0 ≤ p ∧ p < Point.top := by
  rw [codePoints, contains_ofSpan, Bool.and_eq_true, Span.contains_iff, Span.contains_iff]
  simp only [Span.codePoints, Span.domain, Point.endOfInput]
  omega

theorem contains_invert {r : Span} (hr : r.Valid) (s : PointSet) (p : ℤ) :
    (s.invert r).contains p = if r.contains p then !s.contains p else s.contains p := by
  rw [invert, contains_unite, contains_subtract, contains_ofSpan, contains_remove]
  by_cases h : r.contains p = true
  · simp [h, hr.contains_domain h]
  · simp [h]

theorem contains_settleSurrogates (s : PointSet) (p : ℤ) :
    s.settleSurrogates.contains p =
      if Span.surrogates.contains p then
        s.contains (Span.surrogates.start - 1) && s.contains Span.surrogates.stop
      else s.contains p := by
  have hd : Span.surrogates.contains p = true → Span.domain.contains p = true :=
    Span.Valid.contains_domain (by decide)
  unfold settleSurrogates
  by_cases h : Span.surrogates.contains p = true
  · split
    · rename_i hb
      simp [contains_add, h, hd h, hb]
    · rename_i hb
      simp [contains_remove, h, hb]
  · split <;> simp [contains_add, contains_remove, h]

theorem contains_ofSpan_single {q : ℤ} (hq : Point.InDomain q) (p : ℤ) :
    (ofSpan (Span.single q)).contains p = true ↔ p = q := by
  obtain ⟨h1, h2⟩ := hq
  rw [contains_ofSpan, Bool.and_eq_true, Span.contains_iff, Span.contains_iff]
  simp only [Span.single, Span.domain]
  omega

theorem contains_endOfInput (p : ℤ) : endOfInput.contains p = true ↔ p = Point.endOfInput :=
  contains_ofSpan_single Point.inDomain_endOfInput p

theorem contains_single (c : Char) (p : ℤ) : (single c).contains p = true ↔ p = Point.ofChar c :=
  contains_ofSpan_single (Point.inDomain_ofChar c) p

theorem Separated.apart {low : ℤ} {rs : List Span} (h : Separated low rs) :
    ∀ r ∈ rs, ∀ t ∈ rs, r = t ∨ r.stop < t.start ∨ t.stop < r.start := by
  induction rs generalizing low with
  | nil => simp
  | cons u rs ih =>
    obtain ⟨-, -, -, h⟩ := h
    have hu : ∀ t ∈ rs, u.stop < t.start := fun t ht => (h.bounds t ht).1
    intro r hr t ht
    rcases List.mem_cons.1 hr with rfl | hr' <;> rcases List.mem_cons.1 ht with rfl | ht'
    · exact .inl rfl
    · exact .inr (.inl (hu t ht'))
    · exact .inr (.inr (hu r hr'))
    · exact ih h r hr' t ht'

theorem pairwise_ends {low : ℤ} {rs : List Span} (h : Separated low rs) :
    (rs.flatMap fun r => [r.start, r.stop]).Pairwise (· < ·) := by
  induction rs generalizing low with
  | nil => exact .nil
  | cons r rs ih =>
    obtain ⟨-, h2, -, h4⟩ := h
    have hrest : ∀ c ∈ rs.flatMap (fun r => [r.start, r.stop]), r.stop < c := by
      intro c hc
      obtain ⟨t, ht, hc⟩ := List.mem_flatMap.1 hc
      have := h4.bounds t ht
      simp only [List.mem_cons, List.not_mem_nil, or_false] at hc
      omega
    rw [List.flatMap_cons]
    refine List.pairwise_cons.2 ⟨fun c hc => ?_, List.pairwise_cons.2 ⟨hrest, ih h4⟩⟩
    rcases List.mem_cons.1 hc with rfl | hc
    · exact h2
    · exact Int.lt_trans h2 (hrest c hc)

theorem not_contains_around {s : PointSet} {r : Span} (hr : r ∈ s.spans) :
    s.contains (r.start - 1) = false ∧ s.contains r.stop = false := by
  have hb := s.separated.bounds r hr
  have outside : ∀ p, (p = r.start - 1 ∨ p = r.stop) → s.contains p = false := by
    intro p hp
    rw [← Bool.not_eq_true]
    intro hs
    obtain ⟨t, ht, htp⟩ := List.any_eq_true.1 hs
    rw [Span.contains_iff] at htp
    rcases s.separated.apart r hr t ht with rfl | h | h <;> omega
  exact ⟨outside _ (.inl rfl), outside _ (.inr rfl)⟩

theorem contains_ends {s : PointSet} {r : Span} (hr : r ∈ s.spans) :
    s.contains r.start = true ∧ s.contains (r.stop - 1) = true := by
  have hb := s.separated.bounds r hr
  exact ⟨List.any_eq_true.2 ⟨r, hr, Span.contains_iff.2 (by omega)⟩,
    List.any_eq_true.2 ⟨r, hr, Span.contains_iff.2 (by omega)⟩⟩

theorem isEmpty_iff {s : PointSet} : s.isEmpty = true ↔ ∀ p, s.contains p = false := by
  rw [isEmpty, List.isEmpty_iff]
  constructor
  · intro h p
    rw [contains, h]
    rfl
  · intro h
    cases hs : s.spans with
    | nil => rfl
    | cons r rs =>
      have hr : r ∈ s.spans := by
        rw [hs]
        exact List.mem_cons_self
      have := (contains_ends hr).1
      rw [h] at this
      cases this

/-! ### Members and spans -/

section

variable {s t : PointSet} {r : Span} {p : ℤ}

theorem valid_of_mem_spans (hr : r ∈ s.spans) : r.Valid := by
  obtain ⟨h1, h2, h3⟩ := s.separated.bounds r hr
  exact ⟨h1, h2.le, h3⟩

theorem Separated.pairwise {low : ℤ} {rs : List Span} (h : Separated low rs) :
    rs.Pairwise fun r t => r.stop < t.start := by
  induction rs generalizing low with
  | nil => exact .nil
  | cons r rs ih =>
    obtain ⟨-, -, -, h⟩ := h
    exact List.pairwise_cons.2 ⟨fun t ht => (h.bounds t ht).1, ih h⟩

theorem pairwise_starts (s : PointSet) : s.spans.Pairwise fun r t => r.start < t.start := by
  refine s.separated.pairwise.imp_of_mem fun hr _ hlt => ?_
  exact (s.separated.bounds _ hr).2.1.trans hlt

theorem exists_span (h : s.contains p = true) : ∃ r ∈ s.spans, r.start ≤ p ∧ p < r.stop := by
  obtain ⟨r, hr, hp⟩ := List.any_eq_true.1 h
  exact ⟨r, hr, Span.contains_iff.1 hp⟩

theorem contains_of_mem (hr : r ∈ s.spans) (h1 : r.start ≤ p) (h2 : p < r.stop) :
    s.contains p = true :=
  List.any_eq_true.2 ⟨r, hr, Span.contains_iff.2 ⟨h1, h2⟩⟩

/-- A span that holds a member but not the point before it, which is outside, begins there. -/
theorem start_eq (hr : r ∈ s.spans) (h1 : r.start ≤ p) (h2 : p < r.stop)
    (hp : s.contains (p - 1) = false) : r.start = p := by
  by_contra hne
  have hmem := contains_of_mem hr (show r.start ≤ p - 1 by omega) (by omega)
  rw [hp] at hmem
  cases hmem

/-- A span that holds a member but not the point after it, which is outside, ends there. -/
theorem stop_eq (hr : r ∈ s.spans) (h1 : r.start < p) (h2 : p ≤ r.stop)
    (hp : s.contains p = false) : r.stop = p := by
  by_contra hne
  have hmem := contains_of_mem hr (show r.start ≤ p by omega) (by omega)
  rw [hp] at hmem
  cases hmem

/-- The spans are the maximal runs of members. -/
theorem mem_spans_iff :
    r ∈ s.spans ↔ r.start < r.stop ∧ (∀ p, r.start ≤ p → p < r.stop → s.contains p = true) ∧
      s.contains (r.start - 1) = false ∧ s.contains r.stop = false := by
  constructor
  · intro hr
    exact ⟨(s.separated.bounds r hr).2.1, fun p h1 h2 => contains_of_mem hr h1 h2,
      not_contains_around hr⟩
  · rintro ⟨hlt, hall, hbefore, hafter⟩
    obtain ⟨u, hu, h1, h2⟩ := exists_span (hall r.start (Int.le_refl _) hlt)
    have hstart : u.start = r.start := start_eq hu h1 h2 hbefore
    -- If the span ended earlier, a member of the run would come right after it.
    have hle : r.stop ≤ u.stop := by
      by_contra hgt
      have hmem := hall u.stop (by omega) (by omega)
      rw [(not_contains_around hu).2] at hmem
      cases hmem
    have hstop : u.stop = r.stop := stop_eq hu (by omega) hle hafter
    obtain ⟨start, stop⟩ := u
    obtain rfl : start = r.start := hstart
    obtain rfl : stop = r.stop := hstop
    exact hu

theorem ext_contains (h : ∀ p, s.contains p = t.contains p) : s = t := by
  have hspans : s.spans = t.spans := by
    refine Ascending.eq_of_mem_iff s.pairwise_starts t.pairwise_starts fun r => ?_
    simp only [mem_spans_iff, h]
  cases s
  cases t
  cases hspans
  rfl

end

end PointSet

end PatternAutomata
