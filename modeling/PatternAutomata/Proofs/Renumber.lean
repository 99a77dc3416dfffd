import PatternAutomata.Dfa
import PatternAutomata.Proofs.PointMap
import PatternAutomata.Proofs.SparseSet

/-!
Renumbering is an isomorphism: the walk takes in each state once, starting with the start state, and
each state keeps its domains and the images of its transitions.
-/

set_option autoImplicit false

namespace PatternAutomata.Dfa

def walked (d : Dfa) : SparseSet := (SparseSet.ofCapacity d.size).explore d.targets start

theorem walkOrder_eq (d : Dfa) :
    d.walkOrder = d.walked.toList ++ (List.range d.size).filter (!d.walked.contains ·) := rfl

theorem walked_wellFormed (d : Dfa) : d.walked.WellFormed ∧ d.walked.capacity = d.size := by
  obtain ⟨h1, h2⟩ := SparseSet.explore_wellFormed start (SparseSet.wellFormed_ofCapacity d.size)
  exact ⟨h1, h2.trans (SparseSet.capacity_ofCapacity d.size)⟩

theorem head?_walkOrder {d : Dfa} (h : 0 < d.size) : d.walkOrder.head? = some start := by
  have hs := SparseSet.wellFormed_ofCapacity d.size
  have hc := SparseSet.capacity_ofCapacity d.size
  have hpre : _ <+: d.walked.toList :=
    SparseSet.prefix_explore hs (by rw [hc]; exact h) (SparseSet.contains_ofCapacity d.size start)
  rw [SparseSet.toList_ofCapacity, List.nil_append] at hpre
  obtain ⟨rest, hrest⟩ := hpre
  rw [walkOrder_eq, ← hrest]
  rfl

theorem mem_walkOrder {d : Dfa} {q : ℕ} : q ∈ d.walkOrder ↔ q < d.size := by
  obtain ⟨hw, hc⟩ := d.walked_wellFormed
  rw [walkOrder_eq, List.mem_append, List.mem_filter, hw.mem_toList, List.mem_range]
  by_cases hq : d.walked.contains q = true
  · exact ⟨fun _ => hc ▸ hw.lt_capacity hq, fun _ => .inl hq⟩
  · rw [Bool.not_eq_true] at hq
    simp [hq]

theorem nodup_walkOrder (d : Dfa) : d.walkOrder.Nodup := by
  obtain ⟨hw, -⟩ := d.walked_wellFormed
  rw [walkOrder_eq, List.nodup_append]
  refine ⟨hw.nodup_toList, List.nodup_range.filter _, fun p hp q hq => ?_⟩
  rintro rfl
  rw [hw.mem_toList] at hp
  rw [List.mem_filter, hp] at hq
  exact absurd hq.2 Bool.false_ne_true

theorem length_walkOrder (d : Dfa) : d.walkOrder.length = d.size := by
  have h : d.walkOrder.Perm (List.range d.size) :=
    (List.perm_ext_iff_of_nodup d.nodup_walkOrder List.nodup_range).2 fun q => by
      rw [mem_walkOrder, List.mem_range]
  rw [h.length_eq, List.length_range]

/-- Of several writes to different places, each is found afterwards. -/
theorem getElem?_foldl_setIfInBounds {xs : List (ℕ × ℕ)} {a : Array ℕ} {i v : ℕ}
    (h : (xs.map (·.1)).Nodup) (hi : i < a.size)
    (hx : (i, v) ∈ xs ∨ a[i]? = some v ∧ i ∉ xs.map (·.1)) :
    (xs.foldl (fun a x => a.setIfInBounds x.1 x.2) a)[i]? = some v := by
  induction xs generalizing a with
  | nil =>
    rcases hx with hx | hx
    · cases hx
    · exact hx.1
  | cons x xs ih =>
    rw [List.map_cons, List.nodup_cons] at h
    refine ih h.2 (by rw [Array.size_setIfInBounds]; exact hi) ?_
    rcases hx with hx | ⟨ha, hx⟩
    · rcases List.mem_cons.1 hx with rfl | hx
      · exact .inr ⟨Array.getElem?_setIfInBounds_self_of_lt hi, h.1⟩
      · exact .inl hx
    · rw [List.map_cons, List.mem_cons, not_or] at hx
      refine .inr ⟨?_, hx.2⟩
      rw [Array.getElem?_setIfInBounds_ne (Ne.symm hx.1), ha]

theorem getElem?_ranks {order : List ℕ} (h : order.Nodup) (hlt : ∀ q ∈ order, q < order.length)
    {i q : ℕ} (hi : order[i]? = some q) : (ranks order)[q]? = some i := by
  have hmem := List.mem_of_getElem? hi
  refine getElem?_foldl_setIfInBounds ?_ ?_ (.inl ?_)
  · rw [List.zipIdx_map_fst]
    exact h
  · rw [Array.size_replicate]
    exact hlt q hmem
  · exact List.mem_zipIdx_iff_getElem?.2 hi

def rank (d : Dfa) (q : ℕ) : ℕ := (ranks d.walkOrder).getD q 0

theorem rank_eq_iff {d : Dfa} {q i : ℕ} (hq : q < d.size) :
    d.rank q = i ↔ d.walkOrder[i]? = some q := by
  have hlt : ∀ q ∈ d.walkOrder, q < d.walkOrder.length := fun q hq => by
    rw [length_walkOrder]
    exact mem_walkOrder.1 hq
  have hrank : ∀ {i}, d.walkOrder[i]? = some q → d.rank q = i := by
    intro i hi
    rw [rank, Array.getD_eq_getD_getElem?, getElem?_ranks d.nodup_walkOrder hlt hi,
      Option.getD_some]
  constructor
  · rintro rfl
    obtain ⟨i, hi⟩ := List.mem_iff_getElem?.1 (mem_walkOrder.2 hq)
    rw [hrank hi]
    exact hi
  · exact hrank

theorem rank_start {d : Dfa} (h : 0 < d.size) : d.rank start = start := by
  rw [rank_eq_iff (show start < d.size from h)]
  rw [start, ← List.head?_eq_getElem?]
  exact head?_walkOrder h

theorem rank_inj {d : Dfa} {q r : ℕ} (hq : q < d.size) (hr : r < d.size) :
    d.rank q = d.rank r ↔ q = r := by
  constructor
  · intro h
    have h1 := (rank_eq_iff hq).1 rfl
    have h2 := (rank_eq_iff hr).1 rfl
    rw [h, h2] at h1
    exact (Option.some.inj h1).symm
  · rintro rfl
    rfl

theorem getElem?_filterMap_of_isSome {α β : Type} {f : α → Option β} {xs : List α}
    (h : ∀ x ∈ xs, (f x).isSome) (i : ℕ) : (xs.filterMap f)[i]? = xs[i]?.bind f := by
  induction xs generalizing i with
  | nil => rfl
  | cons x xs ih =>
    obtain ⟨y, hy⟩ := Option.isSome_iff_exists.1 (h x List.mem_cons_self)
    rw [List.filterMap_cons_some hy]
    cases i with
    | zero => exact hy.symm
    | succ i => exact ih (fun x hx => h x (List.mem_cons_of_mem _ hx)) i

theorem length_filterMap_of_isSome {α β : Type} {f : α → Option β} {xs : List α}
    (h : ∀ x ∈ xs, (f x).isSome) : (xs.filterMap f).length = xs.length := by
  induction xs with
  | nil => rfl
  | cons x xs ih =>
    obtain ⟨y, hy⟩ := Option.isSome_iff_exists.1 (h x List.mem_cons_self)
    rw [List.filterMap_cons_some hy, List.length_cons, List.length_cons,
      ih fun x hx => h x (List.mem_cons_of_mem _ hx)]

theorem getElem?_reorder {d : Dfa} {q : ℕ} {s : State} (hs : d.states[q]? = some s) :
    d.reorder.states[d.rank q]? = some (s.renumber d.rank) := by
  have hq : q < d.size := (Array.getElem?_eq_some_iff.1 hs).1
  have hi := (rank_eq_iff hq).1 rfl
  have hsome : ∀ old ∈ d.walkOrder, (d.states[old]?.map (State.renumber d.rank)).isSome := by
    intro old hold
    rw [Array.getElem?_eq_getElem (mem_walkOrder.1 hold)]
    rfl
  have h := getElem?_filterMap_of_isSome hsome (d.rank q)
  rw [hi, Option.bind_some, hs, Option.map_some] at h
  simp only [reorder, List.getElem?_toArray]
  exact h

theorem get?_renumber (rank : ℕ → ℕ) (s : State) (p : ℤ) :
    (s.renumber rank).transitions.get? p =
      (s.transitions.get? p).map fun t => { t with target := rank t.target } := by
  rw [State.renumber, PointMap.get?_filterMap]
  cases s.transitions.get? p <;> rfl

/-! ### Targets -/

section

variable {d : Dfa} (hd : d.InRange) {q : ℕ} {s : State} (hs : d.states[q]? = some s)

include hd hs

theorem InRange.target_of_mem_valued {r : Span} {t : Transition}
    (hr : (r, t) ∈ s.transitions.valued) : t.target < d.size := by
  rw [PointMap.mem_valued] at hr
  have hbounds := s.transitions.run_bounds hr
  refine hd.target q r.start t ?_
  rw [transition?, hs, Option.bind_some]
  exact s.transitions.get?_of_mem_runs hr (Span.contains_iff.2 ⟨le_rfl, hbounds.2.1⟩)

theorem InRange.targets_lt : ∀ target ∈ s.targets, target < d.size := by
  intro target htarget
  obtain ⟨⟨r, t⟩, hr, rfl⟩ := List.mem_map.1 htarget
  exact hd.target_of_mem_valued hs hr

end

theorem InRange.lt_of_mem_targets {d : Dfa} (hd : d.InRange) (q : ℕ) :
    ∀ target ∈ d.targets q, target < d.size := by
  intro target htarget
  rw [targets] at htarget
  cases hs : d.states[q]? with
  | none =>
    rw [hs] at htarget
    cases htarget
  | some s =>
    rw [hs] at htarget
    exact hd.targets_lt hs target htarget

theorem size_reorder (d : Dfa) : d.reorder.size = d.size := by
  have hsome : ∀ old ∈ d.walkOrder, (d.states[old]?.map (State.renumber d.rank)).isSome := by
    intro old hold
    rw [Array.getElem?_eq_getElem (mem_walkOrder.1 hold)]
    rfl
  rw [← d.length_walkOrder]
  exact length_filterMap_of_isSome hsome

theorem rank_lt {d : Dfa} {q : ℕ} (hq : q < d.size) : d.rank q < d.size := by
  rw [← d.length_walkOrder]
  exact (List.getElem?_eq_some_iff.1 ((rank_eq_iff hq).1 rfl)).1

theorem exists_of_reorder {d : Dfa} {i : ℕ} {s : State} (hs : d.reorder.states[i]? = some s) :
    ∃ q, d.rank q = i ∧ ∃ t, d.states[q]? = some t ∧ t.renumber d.rank = s := by
  have hi : i < d.walkOrder.length := by
    rw [length_walkOrder, ← size_reorder]
    exact (Array.getElem?_eq_some_iff.1 hs).1
  have hq := mem_walkOrder.1 (List.getElem_mem hi)
  have hrank := (rank_eq_iff hq).2 (List.getElem?_eq_getElem hi)
  have hstate := Array.getElem?_eq_getElem hq
  have hrenumber := getElem?_reorder hstate
  rw [hrank, hs] at hrenumber
  exact ⟨_, hrank, _, hstate, (Option.some.inj hrenumber).symm⟩

theorem InRange.reorder {d : Dfa} (hd : d.InRange) : d.reorder.InRange where
  start := by
    rw [size_reorder]
    exact hd.start
  target i p t ht := by
    obtain ⟨s, hs, hget⟩ := Option.bind_eq_some_iff.1 ht
    obtain ⟨q, rfl, old, hold, rfl⟩ := exists_of_reorder hs
    rw [get?_renumber] at hget
    obtain ⟨u, hu, rfl⟩ := Option.map_eq_some_iff.1 hget
    have hu' : d.transition? q p = some u := by rw [transition?, hold, Option.bind_some, hu]
    rw [size_reorder]
    dsimp only
    exact rank_lt (hd.target q p u hu')

end PatternAutomata.Dfa
