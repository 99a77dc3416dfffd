import PatternAutomata.Proofs.CanonicalMaps
import PatternAutomata.Proofs.Renumber
import Mathlib.Data.List.Find
import Mathlib.Data.List.TakeWhile

/-!
The order of a renumbering. `Visits` is the recursive depth-first walk: behind a new node comes what
its successors lead to, and only then what was left to see to before. The search with a stack
records the same nodes in the same order, with duplicates on its stack or without. So renumbering
keeps an automaton up to the names of its states, and the names follow the recursive walk.
-/

set_option autoImplicit false

namespace PatternAutomata.SparseSet

variable {successors : ℕ → List ℕ}

/-- The nodes that a recursive walk records on its way through `todo` when `seen` are known. -/
inductive Visits (successors : ℕ → List ℕ) : (seen todo visited : List ℕ) → Prop
  | nil (seen : List ℕ) : Visits successors seen [] []
  | known {seen rest visited : List ℕ} {id : ℕ} (hid : id ∈ seen)
      (h : Visits successors seen rest visited) : Visits successors seen (id :: rest) visited
  | new {seen rest below after : List ℕ} {id : ℕ} (hid : id ∉ seen)
      (hbelow : Visits successors (seen ++ [id]) (successors id) below)
      (hafter : Visits successors (seen ++ id :: below) rest after) :
      Visits successors seen (id :: rest) (id :: (below ++ after))

namespace Visits

variable {seen todo visited : List ℕ}

theorem unique {visited' : List ℕ} (h : Visits successors seen todo visited)
    (h' : Visits successors seen todo visited') : visited = visited' := by
  induction h generalizing visited' with
  | nil seen =>
    cases h'
    rfl
  | known hid h ih =>
    cases h' with
    | known _ h' => exact ih h'
    | new hid' _ _ => exact absurd hid hid'
  | new hid hbelow hafter ihbelow ihafter =>
    cases h' with
    | known hid' _ => exact absurd hid' hid
    | new _ hbelow' hafter' =>
      obtain rfl := ihbelow hbelow'
      rw [ihafter hafter']

theorem split {xs ys : List ℕ} (h : Visits successors seen (xs ++ ys) visited) :
    ∃ first second, visited = first ++ second ∧ Visits successors seen xs first ∧
      Visits successors (seen ++ first) ys second := by
  induction xs generalizing seen visited with
  | nil => exact ⟨[], visited, rfl, .nil seen, by rwa [List.append_nil]⟩
  | cons x xs ih =>
    cases h with
    | known hid h =>
      obtain ⟨first, second, rfl, h1, h2⟩ := ih h
      exact ⟨first, second, rfl, .known hid h1, h2⟩
    | @new _ _ below _ _ hid hbelow hafter =>
      obtain ⟨first, second, rfl, h1, h2⟩ := ih hafter
      refine ⟨x :: (below ++ first), second, by simp, .new hid hbelow h1, ?_⟩
      rwa [List.append_assoc, List.cons_append] at h2

theorem of_dropWhile {p : ℕ → Bool} (hp : ∀ id, p id = true → id ∈ seen)
    (h : Visits successors seen (todo.dropWhile p) visited) :
    Visits successors seen todo visited := by
  induction todo with
  | nil => exact h
  | cons id todo ih =>
    by_cases hid : p id = true
    · rw [List.dropWhile_cons_of_pos hid] at h
      exact .known (hp id hid) (ih h)
    · rwa [List.dropWhile_cons_of_neg hid] at h

theorem head?_eq (h : Visits successors seen todo visited) :
    visited.head? = todo.find? (· ∉ seen) := by
  induction h with
  | nil seen => rfl
  | known hid h ih => rw [ih, List.find?_cons_of_neg (by simpa using hid)]
  | new hid _ _ _ _ => rw [List.find?_cons_of_pos (by simpa using hid), List.head?_cons]

/-- Behind each node stands the first of its successors that is new by then, if there is one. -/
theorem getElem?_succ (h : Visits successors seen todo visited) {i id next : ℕ}
    (hi : visited[i]? = some id)
    (hnext : (successors id).find? (· ∉ seen ++ visited.take (i + 1)) = some next) :
    visited[i + 1]? = some next := by
  induction h generalizing i with
  | nil seen => cases hi
  | known _ _ ih => exact ih hi hnext
  | @new seen rest below after first hid hbelow hafter ihbelow ihafter =>
    cases i with
    | zero =>
      obtain rfl := Option.some.inj hi
      have hhead : below.head? = some next := hbelow.head?_eq.trans hnext
      obtain ⟨tail, rfl⟩ := List.head?_eq_some_iff.1 hhead
      rfl
    | succ i =>
      rw [List.getElem?_cons_succ] at hi ⊢
      rw [List.take_succ_cons] at hnext
      by_cases hlt : i < below.length
      · -- The node stands below the first one.
        rw [List.getElem?_append_left hlt] at hi
        rw [List.take_append_of_le_length hlt] at hnext
        have hbelow := ihbelow hi (by simpa using hnext)
        rw [List.getElem?_append_left (List.getElem?_eq_some_iff.1 hbelow).1, hbelow]
      · have hle := not_lt.1 hlt
        rw [List.getElem?_append_right hle] at hi
        rw [List.take_append, List.take_of_length_le (by omega),
          show i + 1 - below.length = i - below.length + 1 by omega] at hnext
        have hafter := ihafter hi (by simpa using hnext)
        rw [List.getElem?_append_right (by omega),
          show i + 1 - below.length = i - below.length + 1 by omega, hafter]

end Visits

/-! ### Walking with a stack -/

theorem WellFormed.visits_nil {s : SparseSet} (h : s.WellFormed) {stack : List ℕ}
    (hnil : stack.dropWhile s.contains = []) : Visits successors s.toList stack [] := by
  refine .of_dropWhile (fun id hid => h.mem_toList.2 hid) ?_
  rw [hnil]
  exact .nil _

/-- A search with a stack records what the recursive walk records. -/
theorem visits_exploreStack {rounds : ℕ} {stack : List ℕ} {s : SparseSet} (h : s.WellFormed)
    (hsucc : ∀ a, ∀ b ∈ successors a, b < s.capacity) (hstack : ∀ a ∈ stack, a < s.capacity)
    (hrounds : s.capacity ≤ s.length + rounds) :
    ∃ visited, (exploreStack successors rounds stack s).toList = s.toList ++ visited ∧
      Visits successors s.toList stack visited := by
  induction rounds generalizing stack s with
  | zero =>
    -- Without rounds left every number is a member.
    refine ⟨[], (List.append_nil _).symm, h.visits_nil (List.dropWhile_eq_nil_iff.2 fun a ha => ?_)⟩
    by_contra hc
    have := h.length_lt (hstack a ha) hc
    omega
  | succ rounds ih =>
    rw [exploreStack]
    split
    · rename_i hnil
      exact ⟨[], (List.append_nil _).symm, h.visits_nil hnil⟩
    · rename_i id rest hcons
      obtain ⟨hc, hsub⟩ := new_of_dropWhile hcons
      have hid : id < s.capacity := hstack id (hsub List.mem_cons_self)
      have hcap := capacity_insert s id
      obtain ⟨visited, hlist, hvisits⟩ := ih (h.insert id) (by rw [hcap]; exact hsucc)
        (lt_of_mem_pushed hsucc hstack hsub) (by rw [hcap, h.length_insert hid hc]; omega)
      rw [h.toList_insert hid hc] at hlist hvisits
      obtain ⟨below, after, rfl, hbelow, hafter⟩ := hvisits.split
      rw [List.append_assoc, List.singleton_append] at hafter
      refine ⟨id :: (below ++ after), ?_, .of_dropWhile (fun a ha => h.mem_toList.2 ha) ?_⟩
      · rw [hlist, List.append_assoc, List.singleton_append]
      · rw [hcons]
        exact .new (fun hin => hc (h.mem_toList.1 hin)) hbelow hafter

/-- A search that leaves successors off its stack that are known when it comes to their node. -/
def exploreNew (successors : ℕ → List ℕ) : (rounds : ℕ) → (stack : List ℕ) → SparseSet → SparseSet
  | 0, _, s => s
  | rounds + 1, stack, s =>
    match stack.dropWhile s.contains with
    | [] => s
    | id :: rest =>
      let s := (s.insert id).2
      exploreNew successors rounds ((successors id).filter (!s.contains ·) ++ rest) s

theorem filter_not_dropWhile (p : ℕ → Bool) (xs : List ℕ) :
    (xs.dropWhile p).filter (!p ·) = xs.filter (!p ·) := by
  induction xs with
  | nil => rfl
  | cons x xs ih =>
    by_cases hx : p x = true
    · rw [List.dropWhile_cons_of_pos hx, ih, List.filter_cons_of_neg (by simpa using hx)]
    · rw [List.dropWhile_cons_of_neg hx]

theorem exploreStack_congr {rounds : ℕ} {stack stack' : List ℕ} {s : SparseSet} (h : s.WellFormed)
    (heq : stack.filter (!s.contains ·) = stack'.filter (!s.contains ·)) :
    exploreStack successors rounds stack s = exploreStack successors rounds stack' s := by
  induction rounds generalizing stack stack' s with
  | zero => rfl
  | succ rounds ih =>
    rw [exploreStack, exploreStack]
    rw [← filter_not_dropWhile s.contains stack, ← filter_not_dropWhile s.contains stack'] at heq
    have hnew : ∀ {stack rest : List ℕ} {id : ℕ}, stack.dropWhile s.contains = id :: rest →
        (id :: rest).filter (!s.contains ·) = id :: rest.filter (!s.contains ·) :=
      fun hcons => List.filter_cons_of_pos (by simpa using (new_of_dropWhile hcons).1)
    split
    · rename_i hnil
      split
      · rfl
      · rename_i hcons
        rw [hnil, hcons, hnew hcons] at heq
        cases heq
    · rename_i id rest hcons
      split
      · rename_i hnil
        rw [hnil, hcons, hnew hcons] at heq
        cases heq
      · rename_i id' rest' hcons'
        rw [hcons, hcons', hnew hcons, hnew hcons'] at heq
        obtain ⟨rfl, hrest⟩ := List.cons.inj heq
        refine ih (h.insert id) ?_
        have hlater : ∀ xs : List ℕ,
            (xs.filter (!s.contains ·)).filter (!(s.insert id).2.contains ·) =
              xs.filter (!(s.insert id).2.contains ·) := by
          intro xs
          rw [List.filter_filter]
          refine List.filter_congr fun a _ => ?_
          cases ha : s.contains a with
          | false => exact Bool.and_true _
          | true =>
            have hlater := contains_of_prefix h (h.insert id) (h.prefix_insert id) ha
            rw [hlater]
            rfl
        rw [List.filter_append, List.filter_append, ← hlater rest, ← hlater rest', hrest]

theorem exploreNew_eq {rounds : ℕ} {stack : List ℕ} {s : SparseSet} (h : s.WellFormed) :
    exploreNew successors rounds stack s = exploreStack successors rounds stack s := by
  induction rounds generalizing stack s with
  | zero => rfl
  | succ rounds ih =>
    rw [exploreNew, exploreStack]
    cases stack.dropWhile s.contains with
    | nil => rfl
    | cons id rest =>
      dsimp only
      rw [ih (h.insert id)]
      refine exploreStack_congr (h.insert id) ?_
      rw [List.filter_append, List.filter_append, List.filter_filter]
      simp only [Bool.and_self]

end PatternAutomata.SparseSet

namespace PatternAutomata.Dfa

open SparseSet (Reaches Visits)

/-! ### Isomorphism -/

theorem InRange.of_targets {d : Dfa} (h0 : Dfa.start < d.size)
    (h : ∀ s ∈ d.states.toList, ∀ target ∈ s.targets, target < d.size) : d.InRange where
  start := h0
  target q p t ht := by
    obtain ⟨s, hs, hget⟩ := Option.bind_eq_some_iff.1 ht
    obtain ⟨r, hr, hc⟩ := s.transitions.exists_mem_runs (PointMap.inDomain_of_get? hget)
    have hvalue := (PointMap.get?_of_mem_runs _ hr hc).symm.trans hget
    have hvalued : (r.span, t) ∈ s.transitions.valued := by
      rw [PointMap.mem_valued, ← hvalue]
      exact hr
    exact h s (Array.mem_toList_iff.2 (Array.mem_of_getElem? hs)) t.target
      (List.mem_map_of_mem hvalued)

theorem bijOn_rank (d : Dfa) : Set.BijOn d.rank (Set.Iio d.size) (Set.Iio d.reorder.size) := by
  rw [size_reorder]
  refine ⟨fun q hq => rank_lt hq, fun q hq r hr h => (rank_inj hq hr).1 h, fun i hi => ?_⟩
  have hi : i < d.walkOrder.length := by rwa [length_walkOrder]
  have hq := mem_walkOrder.1 (List.getElem_mem hi)
  exact ⟨_, hq, (rank_eq_iff hq).2 (List.getElem?_eq_getElem hi)⟩

section

variable {d : Dfa} (hd : d.InRange)

include hd

theorem InRange.boundaries_renumber {q : ℕ} {s : State} (hs : d.states[q]? = some s) :
    (s.renumber d.rank).transitions.boundaries = s.transitions.boundaries := by
  have htarget : ∀ {p t}, s.transitions.get? p = some t → t.target < d.size := by
    intro p t ht
    exact hd.target q p t (by rw [transition?, hs, Option.bind_some, ht])
  have hinj : ∀ p p', (s.renumber d.rank).transitions.get? p =
      (s.renumber d.rank).transitions.get? p' ↔ s.transitions.get? p = s.transitions.get? p' := by
    intro p p'
    rw [get?_renumber, get?_renumber]
    cases ht : s.transitions.get? p with
    | none =>
      cases s.transitions.get? p' with
      | none => rfl
      | some u => simp only [Option.map_none, Option.map_some, reduceCtorEq]
    | some t =>
      cases hu : s.transitions.get? p' with
      | none => simp only [Option.map_none, Option.map_some, reduceCtorEq]
      | some u =>
        obtain ⟨target, reluctant⟩ := t
        obtain ⟨target', reluctant'⟩ := u
        simp only [Option.map_some, Option.some.injEq, Transition.mk.injEq,
          rank_inj (htarget ht) (htarget hu)]
  have hascends : ∀ {m : PointMap Transition}, m.boundaries.Pairwise fun p p' => id p < id p' :=
    fun {m} => m.pairwise_boundaries
  refine Ascending.eq_of_mem_iff hascends hascends fun p => ?_
  rw [PointMap.mem_boundaries_iff, PointMap.mem_boundaries_iff, Ne, hinj]

/-! ### Order -/

/-- The states that can be reached stand in the order of the recursive walk. -/
theorem InRange.visits_walked : Visits d.targets [] [Dfa.start] d.walked.toList := by
  have hcap := SparseSet.capacity_ofCapacity d.size
  have hstack : ∀ q ∈ [Dfa.start], q < (SparseSet.ofCapacity d.size).capacity := by
    rw [hcap]
    simpa using hd.start
  obtain ⟨visited, hlist, hvisits⟩ := SparseSet.visits_exploreStack
    (SparseSet.wellFormed_ofCapacity d.size) (by rw [hcap]; exact hd.lt_of_mem_targets) hstack
    (Nat.le_add_left _ _)
  rw [SparseSet.toList_ofCapacity, List.nil_append] at hlist
  rw [SparseSet.toList_ofCapacity] at hvisits
  rwa [walked, SparseSet.explore, hlist]

theorem InRange.mem_walked {q : ℕ} : q ∈ d.walked.toList ↔ Reaches d.targets Dfa.start q := by
  have hcap := SparseSet.capacity_ofCapacity d.size
  have hno := SparseSet.contains_ofCapacity d.size
  rw [d.walked_wellFormed.1.mem_toList, walked, SparseSet.contains_explore
    (SparseSet.wellFormed_ofCapacity d.size) (by rw [hcap]; exact hd.lt_of_mem_targets)
    (by rw [hcap]; exact hd.start) (fun a ha => absurd ha (by simp [hno])), hno]
  simp

end

theorem mem_take_walkOrder {d : Dfa} {q n : ℕ} (hq : q < d.size) :
    q ∈ d.walkOrder.take n ↔ d.rank q < n := by
  rw [List.mem_iff_getElem?]
  constructor
  · rintro ⟨i, hi⟩
    rw [List.getElem?_take] at hi
    split at hi
    · rename_i hlt
      rwa [(rank_eq_iff hq).2 hi]
    · cases hi
  · intro hlt
    exact ⟨d.rank q, by rw [List.getElem?_take, if_pos hlt, (rank_eq_iff hq).1 rfl]⟩

/-- A state is followed by its first successor that stands behind it, if there is one. -/
theorem InRange.rank_succ {d : Dfa} (hd : d.InRange) {q next : ℕ} (hq : q ∈ d.walked.toList)
    (hnext : (d.targets q).find? (d.rank q < d.rank ·) = some next) :
    d.rank next = d.rank q + 1 := by
  obtain ⟨i, hi⟩ := List.mem_iff_getElem?.1 hq
  have hlt : i < d.walked.toList.length := (List.getElem?_eq_some_iff.1 hi).1
  have hq : q < d.size := by
    rw [← mem_walkOrder, walkOrder_eq]
    exact List.mem_append_left _ hq
  have horder : ∀ {j r : ℕ}, d.walked.toList[j]? = some r → d.walkOrder[j]? = some r := by
    intro j r hj
    rw [walkOrder_eq, List.getElem?_append_left (List.getElem?_eq_some_iff.1 hj).1, hj]
  have hrank : d.rank q = i := (rank_eq_iff hq).2 (horder hi)
  rw [hrank] at hnext ⊢
  have htake : d.walkOrder.take (i + 1) = d.walked.toList.take (i + 1) := by
    rw [walkOrder_eq, List.take_append_of_le_length hlt]
  have hfind : (d.targets q).find? (· ∉ [] ++ d.walked.toList.take (i + 1)) = some next := by
    rw [← hnext]
    refine List.find?_congr fun r hr => ?_
    rw [List.nil_append, ← htake, decide_eq_decide,
      mem_take_walkOrder (hd.lt_of_mem_targets q r hr)]
    omega
  have hnext' := horder (hd.visits_walked.getElem?_succ hi hfind)
  exact (rank_eq_iff (mem_walkOrder.1 (List.mem_of_getElem? hnext'))).2 hnext'

/-- Renumbering permutes the states of an automaton and keeps the start, and each state keeps its
domains, its pieces and the images of its transitions. The states that can be reached come in the
order of the recursive depth-first walk, each followed by its first successor that is new by then,
and the others behind them in the order that they had. -/
theorem reorder_depthFirst {d : Dfa} (hd : d.InRange) :
    d.rank start = start ∧ Set.BijOn d.rank (Set.Iio d.size) (Set.Iio d.reorder.size) ∧
      d.reorder.patterns = d.patterns ∧
      (∀ q s, d.states[q]? = some s → ∃ t, d.reorder.states[d.rank q]? = some t ∧
        t.domains = s.domains ∧ t.transitions.boundaries = s.transitions.boundaries ∧
        ∀ p, t.transitions.get? p =
          (s.transitions.get? p).map fun u => ⟨d.rank u.target, u.reluctant⟩) ∧
      ∃ visited, (∀ xs, Visits d.targets [] [start] xs ↔ xs = visited) ∧
        (SparseSet.exploreNew d.targets d.size [start] (.ofCapacity d.size)).toList = visited ∧
        (∀ q, q ∈ visited ↔ Reaches d.targets start q) ∧
        (∀ q < d.size,
          (visited ++ (List.range d.size).filter (· ∉ visited))[d.rank q]? = some q) ∧
        ∀ q ∈ visited, ∀ next, (d.targets q).find? (d.rank q < d.rank ·) = some next →
          d.rank next = d.rank q + 1 := by
  refine ⟨rank_start hd.start, d.bijOn_rank, rfl, fun q s hs => ?_, d.walked.toList, fun xs => ?_,
    ?_, fun q => hd.mem_walked, fun q hq => ?_, fun q hq next => hd.rank_succ hq⟩
  · exact ⟨_, getElem?_reorder hs, rfl, hd.boundaries_renumber hs, get?_renumber d.rank s⟩
  · constructor
    · exact fun h => h.unique hd.visits_walked
    · rintro rfl
      exact hd.visits_walked
  · rw [SparseSet.exploreNew_eq (SparseSet.wellFormed_ofCapacity d.size), walked,
      SparseSet.explore, SparseSet.capacity_ofCapacity]
  · have hunreached : (List.range d.size).filter (· ∉ d.walked.toList) =
        (List.range d.size).filter (!d.walked.contains ·) := by
      refine List.filter_congr fun r _ => ?_
      simp [d.walked_wellFormed.1.mem_toList]
    rw [hunreached, ← walkOrder_eq]
    exact (rank_eq_iff hq).1 rfl

def cyclic : Dfa where
  states := #[
    ⟨.ofPieces [(⟨97, 98⟩, ⟨3, false⟩), (⟨98, 99⟩, ⟨2, true⟩)], []⟩,
    ⟨.ofPieces [(⟨97, 100⟩, ⟨0, false⟩)], []⟩,
    ⟨.empty, [0]⟩,
    ⟨.ofPieces [(⟨97, 98⟩, ⟨0, false⟩), (⟨98, 120⟩, ⟨2, false⟩)], []⟩]
  patterns := 1

theorem reorder_depthFirst_cyclic : cyclic.InRange ∧ cyclic.rank 3 = cyclic.rank 0 + 1 := by
  have hd : cyclic.InRange := .of_targets (by decide) (by decide)
  obtain ⟨-, -, -, -, visited, -, -, hmem, -, hnext⟩ := reorder_depthFirst hd
  exact ⟨hd, hnext 0 ((hmem 0).2 (.refl 0)) 3 (by decide)⟩

/-- The state that nothing leads to goes to the end. -/
example : cyclic.walkOrder = [0, 3, 2, 1] := by decide

end PatternAutomata.Dfa
