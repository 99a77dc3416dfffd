import PatternAutomata.PointMap
import Mathlib.Data.Int.Notation
import Mathlib.Order.Defs.PartialOrder
import Mathlib.Data.Int.Order.Basic

/-!
What the operations on a map make of the value at a point, and how the runs of a map share out the
domain.
-/

set_option autoImplicit false

namespace PatternAutomata.PointMap

variable {V W : Type}

theorem Ascends.bounds {low : ℤ} {es : List (Entry V)} (h : Ascends low es) :
    ∀ e ∈ es, low ≤ e.start ∧ e.start < Point.top := by
  induction es generalizing low with
  | nil => simp
  | cons d es ih =>
    intro e he
    rcases List.mem_cons.1 he with rfl | he
    · exact ⟨h.1, h.2.1⟩
    · have hstart := h.1
      have := ih h.2.2.ascends e he
      omega

theorem Ascends.pairwise {low : ℤ} {es : List (Entry V)} (h : Ascends low es) :
    es.Pairwise fun d e => d.start < e.start := by
  induction es generalizing low with
  | nil => exact .nil
  | cons d es ih =>
    have hrest := h.2.2.ascends
    exact List.pairwise_cons.2 ⟨fun e he => (hrest.bounds e he).1, ih hrest⟩

theorem exists_head (m : PointMap V) :
    ∃ e es, m.entries = e :: es ∧ e.start = Point.endOfInput := by
  obtain ⟨-, hhead⟩ := m.covers
  obtain ⟨e, he, hstart⟩ := Option.map_eq_some_iff.1 hhead
  obtain ⟨es, hes⟩ := List.head?_eq_some_iff.1 he
  exact ⟨e, es, hes, hstart⟩

theorem inForce_of_lt {low p : ℤ} {before : Option V} {es : List (Entry V)} (h : Ascends low es)
    (hp : p < low) : inForce p before es = before := by
  cases es with
  | nil => rfl
  | cons e es =>
    have := h.1
    rw [inForce, if_neg (by omega)]

theorem inForce_of_le {p : ℤ} {before before' : Option V} {e : Entry V} {es : List (Entry V)}
    (he : e.start ≤ p) : inForce p before (e :: es) = inForce p before' (e :: es) := by
  rw [inForce, if_pos he, inForce, if_pos he]

theorem inForce_dropWhile {stop p : ℤ} {before : Option V} {es : List (Entry V)} (hp : stop ≤ p) :
    inForce p (inForce stop before es) (es.dropWhile fun e => e.start ≤ stop) =
      inForce p before es := by
  induction es generalizing before with
  | nil => rfl
  | cons e es ih =>
    by_cases he : e.start ≤ stop
    · rw [List.dropWhile_cons_of_pos (by simpa using he), inForce, if_pos he, inForce,
        if_pos (by omega)]
      exact ih
    · rw [List.dropWhile_cons_of_neg (by simpa using he),
        show inForce stop before (e :: es) = before from if_neg he]

theorem inForce_resume {stop p : ℤ} {before : Option V} {es : List (Entry V)} (hp : stop ≤ p)
    (ht : p < Point.top) :
    inForce p before (resume stop es) = inForce p none es := by
  rw [resume, if_pos (by omega), inForce, if_pos hp]
  exact inForce_dropWhile hp

theorem get?_eq (m : PointMap V) {p : ℤ} (hp : Point.InDomain p) :
    m.get? p = inForce p none m.entries := if_pos hp

theorem get?_empty (p : ℤ) : (empty : PointMap V).get? p = none := by
  unfold get?
  split
  · simp [empty, inForce]
  · rfl

theorem get?_eq_none (m : PointMap V) {p : ℤ} (hp : ¬ Point.InDomain p) : m.get? p = none :=
  if_neg hp

theorem inDomain_of_get? {m : PointMap V} {p : ℤ} {v : V} (h : m.get? p = some v) :
    Point.InDomain p := by
  by_contra hp
  rw [get?_eq_none _ hp] at h
  cases h

section Edits

variable [DecidableEq V]

theorem inForce_glue {p : ℤ} {before : Option V} {e : Entry V} {es : List (Entry V)}
    (h : Ascends (e.start + 1) es) : inForce p before (glue e es) = inForce p before (e :: es) := by
  cases es with
  | nil => rfl
  | cons t ts =>
    obtain ⟨h1, -, h3⟩ := h
    by_cases hv : t.value = e.value
    · rw [glue, if_pos hv]
      by_cases he : e.start ≤ p
      · rw [inForce, if_pos he, inForce, if_pos he, inForce]
        by_cases ht : t.start ≤ p
        · rw [if_pos ht, hv]
        · rw [if_neg ht]
          exact inForce_of_lt h3.ascends (by omega)
      · rw [inForce, if_neg he, inForce, if_neg he]
    · rw [glue, if_neg hv]

theorem inForce_foldr_glue_of_lt {low start p : ℤ} {before : Option V} {es tail : List (Entry V)}
    (h : Ascends low es) (hs : low ≤ start) (ht : Ascends start tail) (hp : p < start) :
    inForce p before ((es.takeWhile fun e => e.start < start).foldr glue tail) =
      inForce p before es := by
  induction es generalizing low before with
  | nil => exact inForce_of_lt ht hp
  | cons e es ih =>
    obtain ⟨h1, -, h3⟩ := h
    by_cases he : e.start < start
    · have hrest := ascends_foldr_glue h3.ascends (by omega : e.start + 1 ≤ start) ht
      rw [List.takeWhile_cons_of_pos (by simpa using he), List.foldr_cons, inForce_glue hrest,
        inForce, inForce, ih h3.ascends (by omega)]
    · rw [List.takeWhile_cons_of_neg (by simpa using he), List.foldr_nil, inForce_of_lt ht hp,
        inForce, if_neg (by omega)]

theorem inForce_foldr_glue_of_le {low start p : ℤ} {before : Option V} {e : Entry V}
    {es ts : List (Entry V)} (h : Ascends low es) (hs : low ≤ start) (he : e.start = start)
    (ht : Ascends start (e :: ts)) (hp : start ≤ p) :
    inForce p before ((es.takeWhile fun e => e.start < start).foldr glue (e :: ts)) =
      inForce p before (e :: ts) := by
  induction es generalizing low before with
  | nil => rfl
  | cons d es ih =>
    obtain ⟨-, -, h3⟩ := h
    by_cases hd : d.start < start
    · have hrest := ascends_foldr_glue h3.ascends (by omega : d.start + 1 ≤ start) ht
      rw [List.takeWhile_cons_of_pos (by simpa using hd), List.foldr_cons, inForce_glue hrest,
        inForce, if_pos (by omega), ih h3.ascends (by omega)]
      exact inForce_of_le (by omega)
    · rw [List.takeWhile_cons_of_neg (by simpa using hd), List.foldr_nil]

theorem inForce_override {r : Span} {v : Option V} {es : List (Entry V)} (h : Covers es)
    (hs : Point.endOfInput ≤ r.start) (hr : r.start < r.stop) (ht : r.stop ≤ Point.top) {p : ℤ}
    (hp : p < Point.top) :
    inForce p none (override r v es) = if r.contains p then v else inForce p none es := by
  have hresume := ascends_resume h (show Point.endOfInput ≤ r.stop by omega)
  have htail : Ascends (r.start + 1) (resume r.stop es) := hresume.mono (by omega)
  have hglue : Ascends r.start (glue ⟨r.start, v⟩ (resume r.stop es)) :=
    ascends_glue le_rfl (by simp only; omega) htail
  unfold override
  by_cases hlt : p < r.start
  · rw [inForce_foldr_glue_of_lt h.1 hs hglue hlt,
      if_neg (by rw [Span.contains_iff]; omega)]
  · -- The head of the glued tail is the entry of the span itself.
    obtain ⟨e, ts, hcons, he⟩ : ∃ e ts, glue ⟨r.start, v⟩ (resume r.stop es) = e :: ts ∧
        e.start = r.start := by
      have hhead := head?_glue ⟨r.start, v⟩ (resume r.stop es)
      obtain ⟨ts, hts⟩ := List.head?_eq_some_iff.1 hhead
      exact ⟨_, ts, hts, rfl⟩
    rw [hcons, inForce_foldr_glue_of_le h.1 hs he (hcons ▸ hglue) (by omega), ← hcons,
      inForce_glue htail, inForce, if_pos (by simp only; omega)]
    by_cases hstop : p < r.stop
    · rw [inForce_of_lt hresume hstop, if_pos (Span.contains_iff.2 ⟨by omega, hstop⟩)]
    · rw [inForce_resume (by omega) hp, if_neg (by rw [Span.contains_iff]; omega)]

theorem get?_assign (m : PointMap V) (r : Span) (v : Option V) {p : ℤ} (hp : Point.InDomain p) :
    (m.assign r v).get? p = if r.contains p then v else m.get? p := by
  have hdomain : Span.domain.contains p = true := Span.contains_iff.2 hp
  have hoverlap := Span.contains_overlap r Span.domain p
  rw [hdomain, Bool.and_true] at hoverlap
  rw [get?_eq _ hp, get?_eq _ hp, ← hoverlap]
  unfold assign
  split
  · rename_i h
    have := Span.isEmpty_iff.1 h
    rw [if_neg (by rw [Span.contains_iff]; omega)]
  · rename_i h
    have := mt Span.isEmpty_iff.2 h
    exact inForce_override m.covers (Int.le_max_right _ _) (by omega) (Int.min_le_right _ _) hp.2

theorem get?_ofPieces (pieces : List (Span × V)) {p : ℤ} (hp : Point.InDomain p) :
    (ofPieces pieces).get? p = (pieces.find? fun piece => piece.1.contains p).map (·.2) := by
  induction pieces with
  | nil => exact get?_empty p
  | cons piece pieces ih =>
    rw [ofPieces, List.foldr_cons, fill, get?_assign _ _ _ hp, List.find?_cons, ← ofPieces, ih]
    cases piece.1.contains p <;> rfl

end Edits

section Images

variable [DecidableEq W]

theorem inForce_images {low p : ℤ} {f : V → Option W} (before : Option V) {es : List (Entry V)}
    (h : Ascends low es) :
    inForce p (before.bind f) (images f es) = (inForce p before es).bind f := by
  induction es generalizing low before with
  | nil => rfl
  | cons e es ih =>
    have hrest := ascends_images (f := f) h.2.2.ascends
    rw [images, List.foldr_cons, ← images, inForce_glue hrest, inForce, inForce,
      ih e.value h.2.2.ascends, apply_ite (Option.bind · f)]

theorem get?_filterMap (f : V → Option W) (m : PointMap V) (p : ℤ) :
    (m.filterMap f).get? p = (m.get? p).bind f := by
  by_cases hp : Point.InDomain p
  · rw [get?_eq _ hp, get?_eq _ hp]
    exact inForce_images (none : Option V) m.covers.1
  · rw [get?_eq_none _ hp, get?_eq_none _ hp]
    rfl

end Images

/-! ### Runs -/

theorem start_of_mem_runsFrom {low : ℤ} {es : List (Entry V)} (h : Ascends low es) {r : Run V}
    (hr : r ∈ runsFrom es) :
    low ≤ r.span.start ∧ r.span.start < r.span.stop ∧ r.span.stop ≤ Point.top := by
  induction es using runsFrom.induct generalizing low with
  | case1 => cases hr
  | case2 e =>
    rw [runsFrom, List.mem_singleton] at hr
    subst hr
    exact ⟨h.1, h.2.1, le_rfl⟩
  | case3 e e' es ih =>
    obtain ⟨h1, h2, h3⟩ := h
    rw [runsFrom] at hr
    rcases List.mem_cons.1 hr with rfl | hr
    · exact ⟨h1, by have := h3.1; simp only; omega, le_of_lt h3.2.1⟩
    · have := ih h3.ascends hr
      omega

theorem value_of_mem_runsFrom {low p : ℤ} {before : Option V} {es : List (Entry V)}
    (h : Ascends low es) {r : Run V} (hr : r ∈ runsFrom es) (hp : r.span.contains p = true) :
    inForce p before es = r.value := by
  have hp' := Span.contains_iff.1 hp
  induction es using runsFrom.induct generalizing low before with
  | case1 => cases hr
  | case2 e =>
    rw [runsFrom, List.mem_singleton] at hr
    subst hr
    rw [inForce, if_pos hp'.1, inForce]
  | case3 e e' es ih =>
    obtain ⟨h1, h2, h3⟩ := h
    rw [runsFrom] at hr
    rcases List.mem_cons.1 hr with rfl | hr
    · rw [inForce, if_pos hp'.1]
      have hnext : Ascends e'.start (e' :: es) := ⟨le_rfl, h3.2.1, h3.2.2.2⟩
      exact inForce_of_lt hnext hp'.2
    · have hstart := start_of_mem_runsFrom h3.ascends hr
      rw [inForce, if_pos (by omega)]
      exact ih h3.ascends hr

theorem pairwise_runsFrom {low : ℤ} {es : List (Entry V)} (h : Ascends low es) :
    (runsFrom es).Pairwise fun r t => r.span.stop ≤ t.span.start := by
  induction es using runsFrom.induct generalizing low with
  | case1 => exact .nil
  | case2 e => exact List.pairwise_singleton _ _
  | case3 e e' es ih =>
    have h3 := h.2.2
    have hnext : Ascends e'.start (e' :: es) := ⟨le_rfl, h3.2.1, h3.2.2.2⟩
    exact List.pairwise_cons.2 ⟨fun t ht => (start_of_mem_runsFrom hnext ht).1, ih h3.ascends⟩

theorem exists_mem_runsFrom {low p : ℤ} {e : Entry V} {es : List (Entry V)}
    (h : Ascends low (e :: es)) (hp : e.start ≤ p) (ht : p < Point.top) :
    ∃ r ∈ runsFrom (e :: es), r.span.contains p = true := by
  induction es generalizing e low with
  | nil => exact ⟨_, List.mem_singleton_self _, Span.contains_iff.2 ⟨hp, ht⟩⟩
  | cons e' es ih =>
    by_cases hlt : p < e'.start
    · exact ⟨_, List.mem_cons_self, Span.contains_iff.2 ⟨hp, hlt⟩⟩
    · obtain ⟨r, hr, hc⟩ := ih h.2.2.ascends (by omega)
      exact ⟨r, List.mem_cons_of_mem _ hr, hc⟩

theorem run_bounds (m : PointMap V) {r : Run V} (hr : r ∈ m.runs) :
    Point.endOfInput ≤ r.span.start ∧ r.span.start < r.span.stop ∧ r.span.stop ≤ Point.top :=
  start_of_mem_runsFrom m.covers.1 hr

theorem get?_of_mem_runs (m : PointMap V) {r : Run V} (hr : r ∈ m.runs) {p : ℤ}
    (hp : r.span.contains p = true) : m.get? p = r.value := by
  have hbounds := run_bounds m hr
  have hp' := Span.contains_iff.1 hp
  rw [get?_eq m ⟨by omega, by omega⟩]
  exact value_of_mem_runsFrom m.covers.1 hr hp

theorem pairwise_runs (m : PointMap V) :
    m.runs.Pairwise fun r t => r.span.stop ≤ t.span.start := pairwise_runsFrom m.covers.1

theorem exists_mem_runs (m : PointMap V) {p : ℤ} (hp : Point.InDomain p) :
    ∃ r ∈ m.runs, r.span.contains p = true := by
  obtain ⟨ha, hh⟩ := m.covers
  unfold runs
  cases hes : m.entries with
  | nil =>
    rw [hes] at hh
    cases hh
  | cons e es =>
    rw [hes] at ha hh
    have he : e.start = Point.endOfInput := by simpa using hh
    exact exists_mem_runsFrom ha (by rw [he]; exact hp.1) hp.2

theorem mem_valued (m : PointMap V) {r : Span} {v : V} :
    (r, v) ∈ m.valued ↔ ⟨r, some v⟩ ∈ m.runs := by
  unfold valued
  rw [List.mem_filterMap]
  constructor
  · rintro ⟨⟨s, w⟩, hr, h⟩
    obtain ⟨x, hx, heq⟩ := Option.map_eq_some_iff.1 h
    obtain ⟨rfl, rfl⟩ := Prod.mk.inj heq
    simp only at hx
    exact hx ▸ hr
  · intro h
    exact ⟨_, h, rfl⟩

end PatternAutomata.PointMap
