import PatternAutomata.Proofs.Collections
import PatternAutomata.Proofs.MapSplices

/-!
A map over points has one representation: an entry begins where the value changes, and the runs
share out the domain. So maps made by any edits are equal just when they have the same values, which
are those that the same edits make of plain partial functions.
-/

set_option autoImplicit false

namespace PatternAutomata.PointMap

variable {V : Type} {m n : PointMap V} {p : ℤ}

/-! ### Entries -/

theorem Follows.change {low : ℤ} {before : Option V} {es : List (Entry V)}
    (h : Follows low before es) {e : Entry V} (he : e ∈ es) :
    inForce e.start before es = e.value ∧ inForce (e.start - 1) before es ≠ e.value := by
  induction es generalizing low before with
  | nil => cases he
  | cons d es ih =>
    obtain ⟨-, -, hne, hrest⟩ := h
    rcases List.mem_cons.1 he with rfl | he
    · rw [inForce, if_pos le_rfl, inForce, if_neg (by omega)]
      exact ⟨inForce_of_lt hrest.ascends (by omega), hne.symm⟩
    · have hstart := (hrest.ascends.bounds e he).1
      rw [inForce, if_pos (by omega), inForce, if_pos (by omega)]
      exact ih hrest he

theorem map_runsFrom (es : List (Entry V)) :
    (runsFrom es).map (fun r => ⟨r.span.start, r.value⟩) = es := by
  induction es using runsFrom.induct with
  | case1 => rfl
  | case2 e => rfl
  | case3 e e' es ih => rw [runsFrom, List.map_cons, ih]

/-- Entries begin where the value changes, and at the bottom of the domain. -/
theorem mem_entries_iff {e : Entry V} : e ∈ m.entries ↔
    Point.InDomain e.start ∧ m.get? e.start = e.value ∧
      (e.start = Point.endOfInput ∨ m.get? (e.start - 1) ≠ e.value) := by
  constructor
  · intro he
    have hdomain : Point.InDomain e.start := m.covers.1.bounds e he
    refine ⟨hdomain, ?_⟩
    obtain ⟨d, es, hes, hstart⟩ := m.exists_head
    have hfollows : Follows (d.start + 1) d.value es := by
      have h := m.covers.1
      rw [hes] at h
      exact h.2.2
    rw [hes] at he
    rcases List.mem_cons.1 he with rfl | he
    · refine ⟨?_, .inl hstart⟩
      rw [get?_eq m hdomain, hes, inForce, if_pos le_rfl]
      exact inForce_of_lt hfollows.ascends (by omega)
    · obtain ⟨h1, h2⟩ := hfollows.change he
      have hlt := (hfollows.ascends.bounds e he).1
      refine ⟨?_, .inr ?_⟩
      · rw [get?_eq m hdomain, hes, inForce, if_pos (by omega)]
        exact h1
      · rw [get?_eq m ⟨by omega, by have := hdomain.2; omega⟩, hes, inForce, if_pos (by omega)]
        exact h2
  · rintro ⟨hdomain, hvalue, hchange⟩
    obtain ⟨r, hr, hc⟩ := m.exists_mem_runs hdomain
    have hrun := Span.contains_iff.1 hc
    have hbounds := m.run_bounds hr
    have hvalue' := m.get?_of_mem_runs hr hc
    have hstart : r.span.start = e.start := by
      by_contra hne
      have hprev : r.span.contains (e.start - 1) = true :=
        Span.contains_iff.2 ⟨by omega, by omega⟩
      rcases hchange with h | h
      · omega
      · exact h ((m.get?_of_mem_runs hr hprev).trans (hvalue'.symm.trans hvalue))
    have hmem : (⟨r.span.start, r.value⟩ : Entry V) ∈ m.entries := by
      have hmap := List.mem_map_of_mem
        (f := fun r : Run V => (⟨r.span.start, r.value⟩ : Entry V)) hr
      rwa [runs, map_runsFrom] at hmap
    rwa [hstart, ← hvalue', hvalue] at hmem

theorem ext_get? (h : ∀ p, m.get? p = n.get? p) : m = n := by
  have hentries : m.entries = n.entries := by
    refine Ascending.eq_of_mem_iff m.covers.1.pairwise n.covers.1.pairwise fun e => ?_
    simp only [mem_entries_iff, h]
  cases m
  cases n
  cases hentries
  rfl

/-! ### Boundaries and runs -/

theorem pairwise_boundaries (m : PointMap V) : m.boundaries.Pairwise (· < ·) := by
  rw [boundaries, List.pairwise_map]
  exact m.covers.1.pairwise.sublist (List.tail_sublist _)

theorem mem_boundaries_iff : p ∈ m.boundaries ↔
    Point.endOfInput < p ∧ p < Point.top ∧ m.get? (p - 1) ≠ m.get? p := by
  obtain ⟨d, es, hes, hstart⟩ := m.exists_head
  have hpairwise := m.covers.1.pairwise
  rw [hes] at hpairwise
  have htail : p ∈ m.boundaries ↔ Point.endOfInput < p ∧ ∃ e ∈ m.entries, e.start = p := by
    rw [boundaries, List.mem_map, hes, List.tail_cons]
    constructor
    · rintro ⟨e, he, rfl⟩
      have hlt := (List.pairwise_cons.1 hpairwise).1 e he
      exact ⟨by omega, e, List.mem_cons_of_mem _ he, rfl⟩
    · rintro ⟨hlt, e, he, rfl⟩
      rcases List.mem_cons.1 he with rfl | he
      · omega
      · exact ⟨e, he, rfl⟩
  rw [htail]
  constructor
  · rintro ⟨hlt, e, he, rfl⟩
    obtain ⟨hdomain, hvalue, hchange⟩ := mem_entries_iff.1 he
    rw [hvalue]
    exact ⟨hlt, hdomain.2, hchange.resolve_left hlt.ne'⟩
  · rintro ⟨hlt, htop, hne⟩
    exact ⟨hlt, ⟨p, m.get? p⟩, mem_entries_iff.2 ⟨⟨hlt.le, htop⟩, rfl, .inr hne⟩, rfl⟩

theorem isChain_runsFrom {low : ℤ} {es : List (Entry V)} (h : Ascends low es) :
    (runsFrom es).IsChain fun r t => r.span.stop = t.span.start ∧ r.value ≠ t.value := by
  induction es using runsFrom.induct generalizing low with
  | case1 => exact .nil
  | case2 e => exact .singleton _
  | case3 e e' es ih =>
    obtain ⟨-, -, hrest⟩ := h
    have hchain := ih hrest.ascends
    have hne : e.value ≠ e'.value := hrest.2.2.1.symm
    cases es with
    | nil => exact .cons_cons ⟨rfl, hne⟩ hchain
    | cons e'' es => exact .cons_cons ⟨rfl, hne⟩ hchain

/-- The runs share out the domain: one ends where the next starts, with another value. -/
theorem isChain_runs (m : PointMap V) :
    m.runs.IsChain fun r t => r.span.stop = t.span.start ∧ r.value ≠ t.value :=
  isChain_runsFrom m.covers.1

theorem head?_runs (m : PointMap V) :
    m.runs.head?.map (·.span.start) = some Point.endOfInput := by
  obtain ⟨e, es, hes, hstart⟩ := m.exists_head
  rw [runs, hes]
  cases es with
  | nil => exact congrArg some hstart
  | cons e' es => exact congrArg some hstart

theorem getLast?_runsFrom {es : List (Entry V)} (h : es ≠ []) :
    (runsFrom es).getLast?.map (·.span.stop) = some Point.top := by
  induction es using runsFrom.induct with
  | case1 => exact absurd rfl h
  | case2 e => rfl
  | case3 e e' es ih =>
    have htail : runsFrom (e' :: es) ≠ [] := by
      intro hnil
      have hmap := map_runsFrom (e' :: es)
      rw [hnil] at hmap
      cases hmap
    rw [runsFrom, List.getLast?_cons_of_ne_nil htail]
    exact ih (List.cons_ne_nil _ _)

theorem getLast?_runs (m : PointMap V) : m.runs.getLast?.map (·.span.stop) = some Point.top := by
  obtain ⟨e, es, hes, -⟩ := m.exists_head
  exact getLast?_runsFrom (hes ▸ List.cons_ne_nil e es)

/-! ### Edits -/

section Edits

variable [DecidableEq V]

theorem get?_fillSet (m : PointMap V) (s : PointSet) (v : V) (hp : Point.InDomain p) :
    (m.fillSet s v).get? p = if s.contains p then some v else m.get? p := by
  have hfold : ∀ (ts : List Span) (m : PointMap V),
      (ts.foldl (fun m r => m.fill r v) m).get? p =
        if ts.any (·.contains p) then some v else m.get? p := by
    intro ts
    induction ts with
    | nil => intro m; rfl
    | cons t ts ih =>
      intro m
      rw [List.foldl_cons, ih, fill, get?_assign _ _ _ hp, List.any_cons]
      cases t.contains p <;> cases ts.any (·.contains p) <;> rfl
  exact hfold s.spans m

namespace Edit

theorem not_contains_of_valid {r : Span} (hr : r.Valid) (hp : ¬ Point.InDomain p) :
    r.contains p = false := by
  obtain ⟨h1, -, h3⟩ := hr
  rw [← Bool.not_eq_true, Span.contains_iff]
  exact fun h => hp ⟨by omega, by omega⟩

/-- An edit of a map does to its values what it does to a plain partial function. -/
theorem get?_apply (m : PointMap V) {e : Edit V} (he : e.Valid) :
    (e.apply m).get? = e.onValues m.get? := by
  funext p
  by_cases hp : Point.InDomain p
  · cases e with
    | fill r v => exact get?_assign m r (some v) hp
    | fillSet s v => exact get?_fillSet m s v hp
    | clear r => exact get?_assign m r none hp
    | filterMap f => exact get?_filterMap f m p
  · have hnone : ∀ n : PointMap V, n.get? p = none := fun n => get?_eq_none n hp
    cases e with
    | fill r v =>
      rw [onValues, hnone, hnone, not_contains_of_valid he hp]
      rfl
    | fillSet s v =>
      have hs : s.contains p = false := by
        rw [← Bool.not_eq_true]
        exact fun hs => hp (PointSet.inDomain_of_contains hs)
      rw [onValues, hnone, hnone, hs]
      rfl
    | clear r =>
      rw [onValues, hnone, hnone, not_contains_of_valid he hp]
      rfl
    | filterMap f => exact get?_filterMap f m p

theorem applyOver_eq_ok_iff {edit : Span → Edit V} {start stop : ℤ} :
    applyOver edit start stop m = .ok n ↔
      Span.Valid ⟨start, stop⟩ ∧ (edit ⟨start, stop⟩).apply m = n := by
  rw [applyOver, Span.make]
  split
  · rename_i hv
    exact ⟨fun h => ⟨hv, Except.ok.inj h⟩, fun h => congrArg Except.ok h.2⟩
  · rename_i hv
    exact ⟨fun h => (by cases h), fun h => absurd h.1 hv⟩

end Edit

end Edits

namespace Script

theorem get?_run {x : Script V} (h : x.run = .ok m) : m.get? = x.values := by
  induction x with
  | empty =>
    cases h
    funext p
    exact get?_empty p
  | fill x start stop v ih =>
    obtain ⟨n, hn, h⟩ := ok_of_bind h
    obtain ⟨hv, rfl⟩ := Edit.applyOver_eq_ok_iff.1 h
    refine (Edit.get?_apply n ?_).trans ?_
    · exact hv
    · rw [ih hn]
      rfl
  | clear x start stop ih =>
    obtain ⟨n, hn, h⟩ := ok_of_bind h
    obtain ⟨hv, rfl⟩ := Edit.applyOver_eq_ok_iff.1 h
    refine (Edit.get?_apply n ?_).trans ?_
    · exact hv
    · rw [ih hn]
      rfl
  | fillSet x s v ih =>
    obtain ⟨n, hn, h⟩ := ok_of_bind h
    cases h
    refine (Edit.get?_apply n ?_).trans ?_
    · trivial
    · rw [ih hn]
      rfl
  | filterMap x f ih =>
    obtain ⟨n, hn, h⟩ := ok_of_bind h
    cases h
    funext p
    rw [get?_filterMap, ih hn]
    rfl

theorem exists_run_iff (x : Script V) : (∃ m, x.run = .ok m) ↔ x.Valid := by
  induction x with
  | empty => exact ⟨fun _ => trivial, fun _ => ⟨_, rfl⟩⟩
  | fill x start stop v ih =>
    rw [Valid, ← ih]
    constructor
    · rintro ⟨m, h⟩
      obtain ⟨n, hn, h⟩ := ok_of_bind h
      exact ⟨⟨n, hn⟩, (Edit.applyOver_eq_ok_iff.1 h).1⟩
    · rintro ⟨⟨n, hn⟩, hv⟩
      exact ⟨_, by rw [run, hn]; exact Edit.applyOver_eq_ok_iff.2 ⟨hv, rfl⟩⟩
  | clear x start stop ih =>
    rw [Valid, ← ih]
    constructor
    · rintro ⟨m, h⟩
      obtain ⟨n, hn, h⟩ := ok_of_bind h
      exact ⟨⟨n, hn⟩, (Edit.applyOver_eq_ok_iff.1 h).1⟩
    · rintro ⟨⟨n, hn⟩, hv⟩
      exact ⟨_, by rw [run, hn]; exact Edit.applyOver_eq_ok_iff.2 ⟨hv, rfl⟩⟩
  | fillSet x s v ih =>
    rw [Valid, ← ih]
    constructor
    · rintro ⟨m, h⟩
      obtain ⟨n, hn, -⟩ := ok_of_bind h
      exact ⟨n, hn⟩
    · rintro ⟨n, hn⟩
      exact ⟨_, by rw [run, hn]; rfl⟩
  | filterMap x f ih =>
    rw [Valid, ← ih]
    constructor
    · rintro ⟨m, h⟩
      obtain ⟨n, hn, -⟩ := ok_of_bind h
      exact ⟨n, hn⟩
    · rintro ⟨n, hn⟩
      exact ⟨_, by rw [run, hn]; rfl⟩

/-- However a map is made, its runs share out the domain in ascending order, next to each other with
different values; its values are those that the same edits make of plain partial functions; and its
boundaries are where the value changes. Maps with the same values are equal. Splices of arrays make
the same entries, and a search by halves finds the same values. -/
theorem run_maximal (x : Script V) :
    ((∃ m, x.run = .ok m) ↔ x.Valid) ∧ x.runBySplices = x.run.map (·.entries.toArray) ∧
      ∀ m, x.run = .ok m →
        m.runs.head?.map (·.span.start) = some Point.endOfInput ∧
        m.runs.getLast?.map (·.span.stop) = some Point.top ∧
        m.runs.IsChain (fun r t => r.span.stop = t.span.start ∧ r.value ≠ t.value) ∧
        (∀ r ∈ m.runs, r.span.start < r.span.stop ∧
          ∀ p, r.span.contains p = true → m.get? p = r.value) ∧
        (∀ p, m.get? p = x.values p) ∧
        (∀ p, getBySearch m.entries.toArray p = .ok (m.get? p)) ∧
        (∀ p, ¬ Point.InDomain p → m.get? p = none) ∧
        m.boundaries.Pairwise (· < ·) ∧
        (∀ p, p ∈ m.boundaries ↔
          Point.endOfInput < p ∧ p < Point.top ∧ m.get? (p - 1) ≠ m.get? p) ∧
        ∀ (y : Script V) (n : PointMap V), y.run = .ok n → (m = n ↔ ∀ p, m.get? p = n.get? p) := by
  refine ⟨x.exists_run_iff, x.runBySplices_eq, fun m h => ⟨m.head?_runs, m.getLast?_runs,
    m.isChain_runs, fun r hr => ⟨(m.run_bounds hr).2.1, fun p => m.get?_of_mem_runs hr⟩,
    fun p => congrFun (get?_run h) p, getBySearch_eq m, fun p => m.get?_eq_none,
    m.pairwise_boundaries, fun p => mem_boundaries_iff, fun y n _ => ⟨fun heq p => ?_, ext_get?⟩⟩⟩
  rw [heq]

/-- Runs whose values have one image become one. -/
example : (filterMap (fill (fill empty 1 3 true) 3 5 false) fun _ => some ()).run.map valued =
    .ok [(⟨1, 5⟩, ())] := by decide

end Script

end PatternAutomata.PointMap
