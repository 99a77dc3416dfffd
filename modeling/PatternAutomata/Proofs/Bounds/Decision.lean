import PatternAutomata.Proofs.Bounds.Access
import PatternAutomata.Proofs.CanonicalMaps
import PatternAutomata.Proofs.Decision

/-!
Decisions by checked access. A split leads forward and inside of its tree, so that following a tree
comes to a leaf; and there are so few points that each index of a tree fits into a word.
-/

set_option autoImplicit false

namespace PatternAutomata

namespace PointMap

variable {V : Type}

theorem Ascends.length_le {low : ℤ} {es : List (Entry V)} (h : Ascends low es) :
    es.length ≤ (Point.top - low).toNat := by
  induction es generalizing low with
  | nil => exact Nat.zero_le _
  | cons e es ih =>
    obtain ⟨h1, h2, h3⟩ := h
    have := ih h3.ascends
    rw [List.length_cons]
    omega

theorem length_runs_le (m : PointMap V) : m.runs.length ≤ 0x110001 := by
  have hlength := congrArg List.length (map_runsFrom m.entries)
  rw [List.length_map] at hlength
  rw [runs, hlength]
  exact m.covers.1.length_le

end PointMap

namespace Decision

open Fault (read)

def indexLimit : ℕ := 4294967296

/-- Like `code`, where there has to be a segment to split at, and the index of a split has to
fit. -/
def checkedCode : (depth base : ℕ) → List Segment → Except Fault (List Inst)
  | _, _, [] => .error .outOfRange
  | _, _, [s] => .ok [.leaf s.action]
  | 0, _, _ :: _ :: _ => .error .outOfRange
  | depth + 1, base, s :: t :: rest => do
    let all := s :: t :: rest
    let mid := all.length / 2
    let pivot ← read all.toArray mid
    let low ← checkedCode depth (base + 1) (all.take mid)
    let high := base + 1 + low.length
    let upper ← checkedCode depth high (all.drop mid)
    if high < indexLimit then return .split pivot.start high :: low ++ upper
    else .error .outOfRange

def checkedOfMap (m : PointMap Action) : Except Fault Decision := do
  let ss := segments m
  let tree ← checkedCode ss.length 0 ss
  return ⟨(m.runs.filter isExact).map fun r => (r.span.start, runAction r), tree.toArray⟩

def checkedFollow (tree : Array Inst) (p : ℤ) : (steps i : ℕ) → Except Fault Action
  | 0, _ => .error .outOfRange
  | steps + 1, i => do
    match ← read tree i with
    | .leaf action => return action
    | .split pivot high => checkedFollow tree p steps (if p < pivot then i + 1 else high)

def checkedLookup (d : Decision) (p : ℤ) : Except Fault Action :=
  match d.exact.find? fun entry => entry.1 == p with
  | some entry => .ok entry.2
  | none => checkedFollow d.tree p d.tree.size 0

/-- A split has both its halves inside of its tree, further on, and every action that goes on leads
to one of `size` states. -/
structure InBounds (d : Decision) (size : ℕ) : Prop where
  root : 0 < d.tree.size
  fits : d.tree.size ≤ indexLimit
  split : ∀ (i : ℕ) (pivot : ℤ) (high : ℕ), d.tree[i]? = some (.split pivot high) →
    i < high ∧ high < d.tree.size
  exact : ∀ p next update reluctant, (p, Action.goto next update reluctant) ∈ d.exact → next < size
  leaf : ∀ (i : ℕ) next update reluctant,
    d.tree[i]? = some (.leaf (.goto next update reluctant)) → next < size

/-! ### Trees -/

section

variable {base : ℕ} {s : Segment} {ss : List Segment} {insts : List Inst}

theorem Halved.split_within (h : Halved base s ss insts) {i high : ℕ} {pivot : ℤ}
    (hi : insts[i]? = some (.split pivot high)) : base + i < high ∧ high < base + insts.length := by
  induction h generalizing i with
  | leaf base s => cases i <;> cases hi
  | @split base _ _ _ _ low _ _ _ hhigh ihlow ihhigh =>
    have hpos := hhigh.length_eq
    rw [List.length_cons, List.length_append]
    cases i with
    | zero =>
      cases hi
      exact ⟨by omega, by omega⟩
    | succ i =>
      rw [List.getElem?_cons_succ] at hi
      by_cases hlt : i < low.length
      · rw [List.getElem?_append_left hlt] at hi
        have := ihlow hi
        omega
      · rw [List.getElem?_append_right (Nat.le_of_not_lt hlt)] at hi
        have := ihhigh hi
        omega

theorem Halved.exists_of_leaf (h : Halved base s ss insts) {action : Action}
    (hm : .leaf action ∈ insts) : ∃ x ∈ s :: ss, x.action = action := by
  induction h with
  | leaf base s => exact ⟨s, List.mem_cons_self, (Inst.leaf.inj (List.mem_singleton.1 hm)).symm⟩
  | split _ _ _ ihlow ihhigh =>
    rw [List.mem_cons, List.mem_append] at hm
    rcases hm with hm | hm | hm
    · cases hm
    · obtain ⟨x, hx, hxa⟩ := ihlow hm
      refine ⟨x, ?_, hxa⟩
      rw [← List.cons_append]
      exact List.mem_append_left _ hx
    · obtain ⟨x, hx, hxa⟩ := ihhigh hm
      exact ⟨x, List.mem_cons_of_mem _ (List.mem_append_right _ hx), hxa⟩

end

/-- Where segments are cut in the middle, the upper half begins with the segment split at. -/
theorem halves {s t u : Segment} {rest lower upper : List Segment}
    (hss : t :: rest = lower ++ u :: upper) (hmid : lower.length + 1 = (rest.length + 2) / 2) :
    read (s :: t :: rest).toArray ((s :: t :: rest).length / 2) = .ok u ∧
      (s :: t :: rest).take ((s :: t :: rest).length / 2) = s :: lower ∧
      (s :: t :: rest).drop ((s :: t :: rest).length / 2) = u :: upper := by
  rw [List.length_cons, List.length_cons, ← hmid]
  refine ⟨?_, ?_, ?_⟩
  · rw [Fault.read_eq_ok, List.getElem?_toArray, List.getElem?_cons_succ, hss,
      List.getElem?_append_right le_rfl, Nat.sub_self]
    rfl
  · rw [List.take_succ_cons, hss, List.take_left]
  · rw [List.drop_succ_cons, hss, List.drop_left]

theorem checkedCode_eq {depth base : ℕ} {s : Segment} {ss : List Segment} (h : ss.length ≤ depth)
    (hbase : base + (2 * ss.length + 1) ≤ indexLimit) :
    checkedCode depth base (s :: ss) = .ok (code depth base (s :: ss)) := by
  induction depth generalizing base s ss with
  | zero =>
    obtain rfl := List.length_eq_zero_iff.1 (Nat.le_zero.1 h)
    rfl
  | succ depth ih =>
    cases ss with
    | nil => rfl
    | cons t rest =>
      obtain ⟨lower, u, upper, hss, hmid, hcode⟩ := code_split depth base s t rest
      have hlen := length_split hss
      rw [List.length_cons] at h hbase
      obtain ⟨hread, htake, hdrop⟩ := halves (s := s) hss hmid
      have hlow : lower.length ≤ depth := by omega
      rw [checkedCode]
      dsimp only
      rw [bind_of_ok hread, htake, hdrop, bind_of_ok (ih hlow (by omega)), length_code hlow,
        bind_of_ok (ih (by omega) (by omega)), if_pos (by omega), hcode, length_code hlow]
      rfl

/-! ### Decisions -/

theorem action_of_mem_startAtBottom {s : Segment} {ss : List Segment}
    (hs : s ∈ startAtBottom ss) : s.action = .fail ∨ ∃ t ∈ ss, s.action = t.action := by
  cases ss with
  | nil =>
    obtain rfl := List.mem_singleton.1 hs
    exact .inl rfl
  | cons t ts =>
    rcases List.mem_cons.1 hs with rfl | hs
    · exact .inr ⟨t, List.mem_cons_self, rfl⟩
    · exact .inr ⟨s, List.mem_cons_of_mem _ hs, rfl⟩

theorem exists_startAtBottom (ss : List Segment) :
    ∃ s rest, startAtBottom ss = s :: rest ∧ rest.length = ss.length - 1 := by
  cases ss with
  | nil => exact ⟨_, [], rfl, rfl⟩
  | cons t ts => exact ⟨_, ts, rfl, rfl⟩

theorem action_of_mem_segments {m : PointMap Action} {s : Segment} (hs : s ∈ segments m) :
    s.action = .fail ∨ ∃ r ∈ m.runs, s.action = runAction r := by
  rw [segments_eq] at hs
  refine (action_of_mem_startAtBottom hs).imp_right ?_
  rintro ⟨t, ht, haction⟩
  obtain ⟨r, hr, rfl⟩ := List.mem_map.1 ((foldr_glue_sublist _).subset ht)
  exact ⟨r, List.mem_of_mem_filter hr, haction⟩

theorem exists_segments (m : PointMap Action) :
    ∃ s ss, segments m = s :: ss ∧ ss.length < 0x110001 := by
  have hle : (((longRuns m).map segmentOf).foldr glue []).length ≤ 0x110001 :=
    calc _ ≤ ((longRuns m).map segmentOf).length := (foldr_glue_sublist _).length_le
      _ = (longRuns m).length := List.length_map _
      _ ≤ m.runs.length := List.length_filter_le _ _
      _ ≤ 0x110001 := m.length_runs_le
  obtain ⟨s, ss, hsegments, hlength⟩ :=
    exists_startAtBottom (((longRuns m).map segmentOf).foldr glue [])
  exact ⟨s, ss, hsegments, by omega⟩

theorem checkedOfMap_eq (m : PointMap Action) : checkedOfMap m = .ok (ofMap m) := by
  obtain ⟨s, ss, hsegments, hlength⟩ := exists_segments m
  have hcode : checkedCode (s :: ss).length 0 (s :: ss) = .ok (code (s :: ss).length 0 (s :: ss)) :=
    checkedCode_eq (Nat.le_succ _) (by rw [indexLimit]; omega)
  rw [checkedOfMap, ofMap, hsegments, bind_of_ok hcode]
  rfl

theorem inBounds_ofMap {m : PointMap Action} {size : ℕ}
    (h : ∀ p next update reluctant, m.get? p = some (.goto next update reluctant) → next < size) :
    (ofMap m).InBounds size := by
  have hrun : ∀ r ∈ m.runs, ∀ next update reluctant,
      runAction r = .goto next update reluctant → next < size := by
    intro r hr next update reluctant haction
    have hget := m.get?_of_mem_runs hr (Span.contains_iff.2 ⟨le_rfl, (m.run_bounds hr).2.1⟩)
    rw [runAction] at haction
    cases hvalue : r.value with
    | none =>
      rw [hvalue] at haction
      cases haction
    | some action =>
      rw [hvalue, Option.getD_some] at haction
      exact h r.span.start next update reluctant (hget.trans (hvalue.trans (congrArg some haction)))
  obtain ⟨s, ss, hsegments, hlength⟩ := exists_segments m
  have htree := tree_ofMap hsegments
  have hhalved := @halved_code (ss.length + 1) 0 s ss (Nat.le_succ _)
  have hcode := hhalved.length_eq
  constructor
  · rw [htree, List.size_toArray, hcode]
    omega
  · rw [htree, List.size_toArray, hcode, indexLimit]
    omega
  · intro i pivot high hi
    rw [htree, List.getElem?_toArray] at hi
    rw [htree, List.size_toArray]
    have := hhalved.split_within hi
    omega
  · intro p next update reluctant hm
    obtain ⟨r, hr, heq⟩ := List.mem_map.1 hm
    exact hrun r (List.mem_of_mem_filter hr) next update reluctant (Prod.mk.inj heq).2
  · intro i next update reluctant hi
    rw [htree, List.getElem?_toArray] at hi
    obtain ⟨t, ht, haction⟩ := hhalved.exists_of_leaf (List.mem_of_getElem? hi)
    rw [← hsegments] at ht
    rcases action_of_mem_segments ht with hfail | ⟨r, hr, hr'⟩
    · rw [hfail] at haction
      cases haction
    · exact hrun r hr next update reluctant (hr'.symm.trans haction)

/-! ### Look-up -/

section

variable {d : Decision} {size : ℕ} (h : d.InBounds size)

include h

theorem InBounds.checkedFollow_eq {p : ℤ} {steps i : ℕ} (hi : i < d.tree.size)
    (hsteps : d.tree.size ≤ i + steps) :
    checkedFollow d.tree p steps i = .ok (follow d.tree p steps i) := by
  induction steps generalizing i with
  | zero => omega
  | succ steps ih =>
    have hinst := Array.getElem?_eq_getElem hi
    rw [checkedFollow, bind_of_ok (Fault.read_eq_ok.2 hinst), follow, hinst]
    cases hget : d.tree[i] with
    | leaf action => rfl
    | split pivot high =>
      rw [hget] at hinst
      obtain ⟨h1, h2⟩ := h.split i pivot high hinst
      dsimp only
      split
      · exact ih (by omega) (by omega)
      · exact ih h2 (by omega)

theorem InBounds.checkedLookup_eq (p : ℤ) : d.checkedLookup p = .ok (d.lookup p) := by
  rw [checkedLookup, lookup]
  cases d.exact.find? fun entry => entry.1 == p with
  | some entry => rfl
  | none => exact h.checkedFollow_eq h.root (Nat.le_add_left _ _)

theorem InBounds.next_lt_of_follow {p : ℤ} {steps i next : ℕ} {update : DomainUpdate}
    {reluctant : Bool} (hf : follow d.tree p steps i = .goto next update reluctant) :
    next < size := by
  induction steps generalizing i with
  | zero => cases hf
  | succ steps ih =>
    rw [follow] at hf
    cases hinst : d.tree[i]? with
    | none =>
      rw [hinst] at hf
      cases hf
    | some inst =>
      rw [hinst] at hf
      cases inst with
      | leaf action =>
        cases hf
        exact h.leaf i next update reluctant hinst
      | split pivot high => exact ih hf

theorem InBounds.next_lt {p : ℤ} {next : ℕ} {update : DomainUpdate} {reluctant : Bool}
    (hl : d.lookup p = .goto next update reluctant) : next < size := by
  rw [lookup] at hl
  cases hfind : d.exact.find? fun entry => entry.1 == p with
  | none =>
    rw [hfind] at hl
    exact h.next_lt_of_follow hl
  | some entry =>
    obtain ⟨q, action⟩ := entry
    rw [hfind] at hl
    cases hl
    exact h.exact q next update reluctant (List.mem_of_find?_eq_some hfind)

end

end Decision

end PatternAutomata
