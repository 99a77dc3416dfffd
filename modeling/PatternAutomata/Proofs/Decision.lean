import PatternAutomata.Program.Generate
import PatternAutomata.Proofs.Collections
import PatternAutomata.Proofs.PointMap

/-!
A decision gives each point the action of its run. The exact table holds the runs of one point that
have an action; on all other points the tree finds the segment that is in force, and segments that
were glued together or stretched to the bottom have not lost any of these points.
-/

set_option autoImplicit false

namespace PatternAutomata.Decision

open PointMap (Run)

def inForce (p : ℤ) : (before : Action) → List Segment → Action
  | before, [] => before
  | before, s :: ss => if s.start ≤ p then inForce p s.action ss else before

def Ascending (ss : List Segment) : Prop := ss.Pairwise fun s t => s.start < t.start

theorem inForce_append_of_lt {p : ℤ} {before : Action} {ss : List Segment} {t : Segment}
    {ts : List Segment} (h : p < t.start) :
    inForce p before (ss ++ t :: ts) = inForce p before ss := by
  induction ss generalizing before with
  | nil => exact if_neg (by omega)
  | cons s ss ih => rw [List.cons_append, inForce, inForce, ih]

theorem inForce_append_of_le {p : ℤ} {before : Action} {ss : List Segment} {t : Segment}
    {ts : List Segment} (hs : ∀ s ∈ ss, s.start < t.start) (h : t.start ≤ p) :
    inForce p before (ss ++ t :: ts) = inForce p t.action ts := by
  induction ss generalizing before with
  | nil => exact if_pos h
  | cons s ss ih =>
    have := hs s List.mem_cons_self
    rw [List.cons_append, inForce, if_pos (by omega)]
    exact ih fun u hu => hs u (List.mem_cons_of_mem _ hu)

/-! ### Segments -/

theorem inForce_glue {p : ℤ} {before : Action} {s : Segment} {ss : List Segment}
    (h : Ascending (s :: ss)) : inForce p before (glue s ss) = inForce p before (s :: ss) := by
  cases ss with
  | nil => rfl
  | cons t ts =>
    by_cases ha : t.action = s.action
    · rw [glue, if_pos ha, inForce, inForce]
      split
      · by_cases ht : t.start ≤ p
        · rw [inForce, if_pos ht, ha]
        · have hts := (List.pairwise_cons.1 (List.pairwise_cons.1 h).2).1
          rw [inForce, if_neg ht]
          cases ts with
          | nil => rfl
          | cons u us =>
            have := hts u List.mem_cons_self
            exact if_neg (by omega)
      · rfl
    · rw [glue, if_neg ha]

theorem glue_sublist (s : Segment) (ss : List Segment) : (glue s ss).Sublist (s :: ss) := by
  cases ss with
  | nil => exact List.Sublist.refl _
  | cons t ts =>
    by_cases ha : t.action = s.action
    · rw [glue, if_pos ha]
      exact (List.sublist_cons_self t ts).cons_cons s
    · have hglue : glue s (t :: ts) = s :: t :: ts := if_neg ha
      exact hglue ▸ List.Sublist.refl _

theorem foldr_glue_sublist (ss : List Segment) : (ss.foldr glue []).Sublist ss := by
  induction ss with
  | nil => exact List.Sublist.refl _
  | cons s ss ih => exact (glue_sublist s _).trans (ih.cons_cons s)

theorem inForce_foldr_glue {p : ℤ} {before : Action} {ss : List Segment} (h : Ascending ss) :
    inForce p before (ss.foldr glue []) = inForce p before ss := by
  induction ss generalizing before with
  | nil => rfl
  | cons s ss ih =>
    have hss := (List.pairwise_cons.1 h).2
    rw [List.foldr_cons, inForce_glue (h.sublist ((foldr_glue_sublist ss).cons_cons s)), inForce,
      inForce, ih hss]

theorem head?_foldr_glue (s : Segment) (ss : List Segment) :
    ((s :: ss).foldr glue []).head? = some s := by
  rw [List.foldr_cons]
  cases ss.foldr glue [] with
  | nil => rfl
  | cons t ts =>
    by_cases ha : t.action = s.action
    · rw [glue, if_pos ha]
      rfl
    · rw [glue, if_neg ha]
      rfl

def segmentOf (r : Run Action) : Segment := ⟨r.span.start, runAction r⟩

theorem inForce_map_segmentOf {p : ℤ} {before : Action} {rs : List (Run Action)} {r : Run Action}
    (hb : ∀ r ∈ rs, r.span.start < r.span.stop)
    (h : rs.Pairwise fun r t => r.span.stop ≤ t.span.start) (hr : r ∈ rs)
    (hp : r.span.contains p = true) : inForce p before (rs.map segmentOf) = runAction r := by
  obtain ⟨hp1, hp2⟩ := Span.contains_iff.1 hp
  induction rs generalizing before with
  | nil => cases hr
  | cons t ts ih =>
    obtain ⟨ht, hts⟩ := List.pairwise_cons.1 h
    rw [List.map_cons, inForce]
    rcases List.mem_cons.1 hr with rfl | hr
    · rw [if_pos (show (segmentOf r).start ≤ p from hp1)]
      cases ts with
      | nil => rfl
      | cons u us =>
        have := ht u List.mem_cons_self
        exact if_neg (by simp only [segmentOf]; omega)
    · have h1 := ht r hr
      have h2 := hb t List.mem_cons_self
      rw [if_pos (by simp only [segmentOf]; omega)]
      exact ih (fun u hu => hb u (List.mem_cons_of_mem _ hu)) hts hr

theorem ascending_map_segmentOf {rs : List (Run Action)} (hb : ∀ r ∈ rs, r.span.start < r.span.stop)
    (h : rs.Pairwise fun r t => r.span.stop ≤ t.span.start) : Ascending (rs.map segmentOf) := by
  refine List.pairwise_map.2 (h.imp_of_mem ?_)
  intro r t hr _ hrt
  have := hb r hr
  simp only [segmentOf]
  omega

/-! ### Trees -/

theorem code_split (depth base : ℕ) (s t : Segment) (rest : List Segment) :
    ∃ lower u upper, t :: rest = lower ++ u :: upper ∧
      lower.length + 1 = (rest.length + 2) / 2 ∧
      code (depth + 1) base (s :: t :: rest) =
        .split u.start (base + 1 + (code depth (base + 1) (s :: lower)).length) ::
          (code depth (base + 1) (s :: lower) ++
            code depth (base + 1 + (code depth (base + 1) (s :: lower)).length) (u :: upper)) := by
  obtain ⟨mid, hmid⟩ : ∃ mid, (rest.length + 2) / 2 = mid + 1 :=
    Nat.exists_eq_succ_of_ne_zero (by omega)
  have hlt : mid < (t :: rest).length := by rw [List.length_cons]; omega
  obtain ⟨u, upper, hu⟩ : ∃ u upper, (t :: rest).drop mid = u :: upper :=
    ⟨_, _, List.drop_eq_getElem_cons hlt⟩
  refine ⟨(t :: rest).take mid, u, upper, ?_, ?_, ?_⟩
  · rw [← hu, List.take_append_drop]
  · rw [List.length_take, Nat.min_eq_left (Nat.le_of_lt hlt), hmid]
  · have hlen : (s :: t :: rest).length / 2 = mid + 1 := hmid
    rw [code]
    simp only [hlen, List.take_succ_cons, List.drop_succ_cons, hu, List.head?_cons, Option.map_some,
      Option.getD_some, List.cons_append]

theorem length_split {t u : Segment} {rest lower upper : List Segment}
    (h : t :: rest = lower ++ u :: upper) :
    lower.length + (upper.length + 1) = rest.length + 1 := by
  rw [← List.length_cons, ← List.length_append, ← h, List.length_cons]

/-- The tree that halving gives behind `base` instructions: the leaf of a single segment, or a split
in front of the trees of a lower and an upper half. -/
inductive Halved : (base : ℕ) → Segment → List Segment → List Inst → Prop
  | leaf (base : ℕ) (s : Segment) : Halved base s [] [.leaf s.action]
  | split {base : ℕ} {s u : Segment} {lower upper : List Segment} {low high : List Inst}
    (hmid : lower.length + 1 = (lower.length + upper.length + 2) / 2)
    (hlow : Halved (base + 1) s lower low)
    (hhigh : Halved (base + 1 + low.length) u upper high) :
    Halved base s (lower ++ u :: upper) (.split u.start (base + 1 + low.length) :: (low ++ high))

theorem halved_code {depth base : ℕ} {s : Segment} {ss : List Segment} (h : ss.length ≤ depth) :
    Halved base s ss (code depth base (s :: ss)) := by
  induction depth generalizing base s ss with
  | zero =>
    obtain rfl := List.length_eq_zero_iff.1 (Nat.le_zero.1 h)
    exact .leaf base s
  | succ depth ih =>
    cases ss with
    | nil => exact .leaf base s
    | cons t rest =>
      obtain ⟨lower, u, upper, hss, hmid, hcode⟩ := code_split depth base s t rest
      have hlen := length_split hss
      rw [List.length_cons] at h
      rw [hcode, hss]
      exact .split (by omega) (ih (by omega)) (ih (by omega))

section

variable {base : ℕ} {s : Segment} {ss : List Segment} {insts : List Inst}

theorem Halved.length_eq (h : Halved base s ss insts) : insts.length = 2 * ss.length + 1 := by
  induction h with
  | leaf base s => rfl
  | split _ _ _ ihlow ihhigh =>
    rw [List.length_cons, List.length_append, ihlow, ihhigh, List.length_append, List.length_cons]
    omega

theorem length_code {depth : ℕ} (h : ss.length ≤ depth) :
    (code depth base (s :: ss)).length = 2 * ss.length + 1 := (halved_code h).length_eq

/-- Following the tree from where segments are laid out finds the one in force. -/
theorem Halved.follow_eq {tree : Array Inst} {p : ℤ} {steps : ℕ} (h : Halved base s ss insts)
    (hlaid : LaidOut tree base insts) (hs : Ascending (s :: ss)) (hsteps : ss.length < steps) :
    follow tree p steps base = inForce p s.action ss := by
  induction h generalizing steps with
  | leaf base s =>
    obtain ⟨steps, rfl⟩ := Nat.exists_eq_succ_of_ne_zero (Nat.ne_of_gt hsteps)
    rw [follow, (laidOut_cons.1 hlaid).1]
    rfl
  | @split base s u lower upper _ _ _ _ _ ihlow ihhigh =>
    obtain ⟨steps, rfl⟩ := Nat.exists_eq_succ_of_ne_zero (Nat.ne_of_gt (Nat.zero_lt_of_lt hsteps))
    rw [List.length_append, List.length_cons] at hsteps
    rw [laidOut_cons, laidOut_append] at hlaid
    obtain ⟨hsplit, hlow, hhigh⟩ := hlaid
    have hlower : ∀ x ∈ lower, x.start < u.start := fun x hx =>
      (List.pairwise_append.1 (List.pairwise_cons.1 hs).2).2.2 x hx u List.mem_cons_self
    rw [follow, hsplit]
    by_cases hp : p < u.start
    · simp only [hp, if_true]
      rw [inForce_append_of_lt hp]
      exact ihlow hlow (hs.sublist ((List.sublist_append_left lower (u :: upper)).cons_cons s))
        (by omega)
    · simp only [hp, if_false]
      rw [inForce_append_of_le hlower (by omega)]
      exact ihhigh hhigh (hs.sublist ((List.sublist_append_right lower (u :: upper)).trans
        (List.sublist_cons_self s _))) (by omega)

end

/-! ### Look-up -/

def longRuns (m : PointMap Action) : List (Run Action) := m.runs.filter (!isExact ·)

theorem segments_eq (m : PointMap Action) :
    segments m = startAtBottom (((longRuns m).map segmentOf).foldr glue []) := rfl

theorem mem_longRuns {m : PointMap Action} {r : Run Action} (hr : r ∈ m.runs)
    (he : ¬ isExact r = true) : r ∈ longRuns m :=
  List.mem_filter.2 ⟨hr, by simp [he]⟩

theorem longRuns_lt (m : PointMap Action) : ∀ r ∈ longRuns m, r.span.start < r.span.stop :=
  fun _ hr => (m.run_bounds (List.mem_filter.1 hr).1).2.1

theorem pairwise_longRuns (m : PointMap Action) :
    (longRuns m).Pairwise fun r t => r.span.stop ≤ t.span.start :=
  m.pairwise_runs.sublist List.filter_sublist

theorem ascending_longRuns (m : PointMap Action) : Ascending ((longRuns m).map segmentOf) :=
  ascending_map_segmentOf (longRuns_lt m) (pairwise_longRuns m)

theorem ascending_segments (m : PointMap Action) : Ascending (segments m) := by
  have hglued := (ascending_longRuns m).sublist (foldr_glue_sublist _)
  have hbottom : ∀ s ∈ ((longRuns m).map segmentOf).foldr glue [], Point.endOfInput ≤ s.start := by
    intro s hs
    obtain ⟨r, hr, rfl⟩ := List.mem_map.1 ((foldr_glue_sublist _).subset hs)
    exact (m.run_bounds (List.mem_filter.1 hr).1).1
  rw [segments_eq]
  generalize ((longRuns m).map segmentOf).foldr glue [] = ss at hglued hbottom
  cases ss with
  | nil => exact List.pairwise_singleton _ _
  | cons s ss =>
    -- The stretched segment still begins before the next one.
    have hss := List.pairwise_cons.1 hglued
    exact List.pairwise_cons.2
      ⟨fun t ht => lt_of_le_of_lt (hbottom s List.mem_cons_self) (hss.1 t ht), hss.2⟩

theorem tree_ofMap {m : PointMap Action} {s : Segment} {ss : List Segment}
    (h : segments m = s :: ss) :
    (ofMap m).tree = (code (ss.length + 1) 0 (s :: ss)).toArray := by
  simp only [ofMap, h, List.length_cons]

theorem follow_tree (m : PointMap Action) {p : ℤ} {r : Run Action} (hr : r ∈ longRuns m)
    (hp : r.span.contains p = true) :
    follow (ofMap m).tree p (ofMap m).tree.size 0 = runAction r := by
  have hb := longRuns_lt m
  have hpair := pairwise_longRuns m
  have hasc := ascending_longRuns m
  obtain ⟨first, others, hlong⟩ : ∃ first others, longRuns m = first :: others :=
    List.exists_cons_of_ne_nil (List.ne_nil_of_mem hr)
  obtain ⟨ss, hglued⟩ := List.head?_eq_some_iff.1
    (head?_foldr_glue (segmentOf first) (others.map segmentOf))
  rw [← List.map_cons, ← hlong] at hglued
  have hsegments : segments m = ⟨Point.endOfInput, runAction first⟩ :: ss := by
    rw [segments_eq, hglued]
    rfl
  have hstretched := ascending_segments m
  rw [hsegments] at hstretched
  have hfirst : first.span.start ≤ p := by
    have hrp := (Span.contains_iff.1 hp).1
    rw [hlong] at hr hpair hb
    rcases List.mem_cons.1 hr with rfl | hr
    · exact hrp
    · have h1 := (List.pairwise_cons.1 hpair).1 r hr
      have h2 := hb first List.mem_cons_self
      omega
  have hforce : inForce p .fail (segmentOf first :: ss) = runAction r := by
    rw [← hglued, inForce_foldr_glue hasc]
    exact inForce_map_segmentOf hb hpair hr hp
  rw [inForce, if_pos (show (segmentOf first).start ≤ p from hfirst)] at hforce
  have htree := tree_ofMap hsegments
  have hsize : ss.length < (ofMap m).tree.size := by
    rw [htree, List.size_toArray, length_code (by omega)]
    omega
  have hlaid : LaidOut (ofMap m).tree 0
      (code (ss.length + 1) 0 (⟨Point.endOfInput, runAction first⟩ :: ss)) := by
    rw [htree]
    exact laidOut_toArray _
  exact ((halved_code (Nat.le_succ _)).follow_eq hlaid hstretched hsize).trans hforce

/-- The exact table and the tree together decide as the map does. -/
theorem lookup_ofMap (m : PointMap Action) {p : ℤ} (hp : Point.InDomain p) :
    (ofMap m).lookup p = (m.get? p).getD .fail := by
  unfold lookup
  cases hfind : (ofMap m).exact.find? fun entry => entry.1 == p with
  | some entry =>
    obtain ⟨r, hr, rfl⟩ := List.mem_map.1 (List.mem_of_find?_eq_some hfind)
    have hstart : r.span.start = p := by simpa using List.find?_some hfind
    have hrun := (List.mem_filter.1 hr).1
    have hbounds := m.run_bounds hrun
    rw [m.get?_of_mem_runs hrun (Span.contains_iff.2 ⟨by omega, by omega⟩)]
    rfl
  | none =>
    obtain ⟨r, hr, hc⟩ := m.exists_mem_runs hp
    have hlong : ¬ isExact r = true := by
      intro he
      have hlen : r.span.length = 1 := by
        simp only [isExact, Bool.and_eq_true, beq_iff_eq] at he
        exact he.1
      have hmem : (r.span.start, runAction r) ∈ (ofMap m).exact :=
        List.mem_map.2 ⟨r, List.mem_filter.2 ⟨hr, he⟩, rfl⟩
      have hne := List.find?_eq_none.1 hfind _ hmem
      have hcp := Span.contains_iff.1 hc
      simp only [Span.length] at hlen
      exact hne (beq_iff_eq.2 (by simp only; omega))
    rw [m.get?_of_mem_runs hr hc]
    exact follow_tree m (mem_longRuns hr hlong) hc

end PatternAutomata.Decision
