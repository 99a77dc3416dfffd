import PatternAutomata.Proofs.Bounds.Decision
import Mathlib.Data.Nat.Log

/-!
The shape of decision trees. A tree is written behind what stands in an array already: a split is
put down before its halves are, and where its upper half begins is filled in once the lower one is
written. The layout of such a tree is complete, in order, and as shallow as its number of leaves
allows.
-/

set_option autoImplicit false

namespace PatternAutomata.Decision

open Fault (read write)

/-! ### Writing -/

def setHigh (tree : Array Inst) (i high : ℕ) : Except Fault (Array Inst) := do
  match ← read tree i with
  | .split pivot _ => write tree i (.split pivot (high % indexLimit))
  | .leaf _ => return tree

/-- Writes the tree of some segments behind the instructions that are there. -/
def appendTree : List Segment → Array Inst → Except Fault (Array Inst)
  | [], _ => .error .outOfRange
  | [s], tree => .ok (tree.push (.leaf s.action))
  | s :: t :: rest, tree => do
    let all := s :: t :: rest
    let mid := all.length / 2
    let pivot ← read all.toArray mid
    let low ← appendTree (all.take mid) (tree.push (.split pivot.start 0))
    let patched ← setHigh low tree.size low.size
    appendTree (all.drop mid) patched
termination_by ss => ss.length
decreasing_by
  all_goals simp only [List.length_take, List.length_drop, List.length_cons]; omega

theorem setIfInBounds_push_size (tree : Array Inst) (old new : Inst) :
    (tree.push old).setIfInBounds tree.size new = tree.push new := by
  rw [← Array.toList_inj, Array.toList_setIfInBounds, Array.toList_push, Array.toList_push,
    ← Array.length_toList, List.set_append_right _ _ le_rfl, Nat.sub_self]
  rfl

theorem setHigh_push_append {tree low : Array Inst} {pivot : ℤ} {old high : ℕ}
    (hhigh : high < indexLimit) :
    setHigh (tree.push (.split pivot old) ++ low) tree.size high =
      .ok (tree.push (.split pivot high) ++ low) := by
  have hlt : tree.size < (tree.push (.split pivot old)).size := by
    rw [Array.size_push]
    exact Nat.lt_succ_self _
  have hread : read (tree.push (.split pivot old) ++ low) tree.size = .ok (.split pivot old) := by
    rw [Fault.read_eq_ok, Array.getElem?_append_left hlt, Array.getElem?_push_size]
  rw [setHigh, bind_of_ok hread]
  dsimp only
  rw [Nat.mod_eq_of_lt hhigh,
    Fault.write_of_lt (hlt.trans_le (Array.size_append ▸ Nat.le_add_right _ _)),
    Array.setIfInBounds_append_left hlt, setIfInBounds_push_size]

/-- What is written is the code of the segments, from where the array ended. -/
theorem appendTree_eq {depth : ℕ} {s : Segment} {ss : List Segment} {tree : Array Inst}
    (h : ss.length ≤ depth) (hfits : tree.size + (2 * ss.length + 1) ≤ indexLimit) :
    appendTree (s :: ss) tree = .ok (tree ++ (code depth tree.size (s :: ss)).toArray) := by
  induction depth generalizing s ss tree with
  | zero =>
    obtain rfl := List.length_eq_zero_iff.1 (Nat.le_zero.1 h)
    rw [appendTree, code, Array.push_eq_append]
  | succ depth ih =>
    cases ss with
    | nil => rw [appendTree, code, Array.push_eq_append]
    | cons t rest =>
      obtain ⟨lower, u, upper, hss, hmid, hcode⟩ := code_split depth tree.size s t rest
      obtain ⟨hread, htake, hdrop⟩ := halves (s := s) hss hmid
      have hlen := length_split hss
      rw [List.length_cons] at h hfits
      have hlowlen := @length_code (tree.size + 1) s lower depth (by omega)
      have hlow := @ih s lower (tree.push (.split u.start 0)) (by omega)
        (by simp only [Array.size_push]; omega)
      rw [Array.size_push] at hlow
      generalize code depth (tree.size + 1) (s :: lower) = low at hcode hlow hlowlen
      have hsize : ∀ inst, (tree.push inst ++ low.toArray).size = tree.size + 1 + low.length :=
        fun inst => by simp only [Array.size_append, Array.size_push, List.size_toArray]
      have hupper := @ih u upper
        (tree.push (.split u.start (tree.size + 1 + low.length)) ++ low.toArray) (by omega)
        (by rw [hsize]; omega)
      rw [hsize] at hupper
      rw [appendTree, bind_of_ok hread, htake, bind_of_ok hlow, hsize,
        bind_of_ok (setHigh_push_append (by omega)), hdrop, hupper, hcode]
      congr 1
      simp only [← Array.toList_inj, Array.toList_append, Array.toList_push, List.append_assoc,
        List.cons_append, List.nil_append]

/-! ### Walking -/

/-- A walk in order through the tree in the instructions from `i` to below `stop`: the pivots that
it meets and the actions of the leaves. The lower half of a split stands right behind it, and the
upper half right behind the lower. -/
inductive InOrder (tree : Array Inst) : (i stop : ℕ) → List ℤ → List Action → Prop
  | leaf {i : ℕ} {action : Action} (h : tree[i]? = some (.leaf action)) :
    InOrder tree i (i + 1) [] [action]
  | split {i high stop : ℕ} {pivot : ℤ} {lows highs : List ℤ} {below above : List Action}
    (h : tree[i]? = some (.split pivot high)) (hlow : InOrder tree (i + 1) high lows below)
    (hhigh : InOrder tree high stop highs above) :
    InOrder tree i stop (lows ++ pivot :: highs) (below ++ above)

/-- A way down the tree from `i` to `j` passes this number of splits. -/
inductive Descends (tree : Array Inst) : (i splits j : ℕ) → Prop
  | here (i : ℕ) : Descends tree i 0 i
  | lower {i high splits j : ℕ} {pivot : ℤ} (h : tree[i]? = some (.split pivot high))
    (hd : Descends tree (i + 1) splits j) : Descends tree i (splits + 1) j
  | upper {i high splits j : ℕ} {pivot : ℤ} (h : tree[i]? = some (.split pivot high))
    (hd : Descends tree high splits j) : Descends tree i (splits + 1) j

section

variable {tree : Array Inst}

theorem Descends.of_leaf {i splits j : ℕ} {action : Action} (hd : Descends tree i splits j)
    (h : tree[i]? = some (.leaf action)) : splits = 0 ∧ j = i := by
  cases hd with
  | here _ => exact ⟨rfl, rfl⟩
  | lower h' _ | upper h' _ => cases h.symm.trans h'

namespace InOrder

variable {i stop : ℕ} {pivots : List ℤ} {actions : List Action}

theorem lt_stop (h : InOrder tree i stop pivots actions) : i < stop := by
  induction h with
  | leaf _ => exact Nat.lt_succ_self _
  | split _ _ _ ihlow ihhigh => omega

theorem subtree (h : InOrder tree i stop pivots actions) {k : ℕ} (hi : i ≤ k) (hk : k < stop) :
    ∃ stop' ≤ stop, ∃ pivots' actions', InOrder tree k stop' pivots' actions' := by
  induction h with
  | leaf h =>
    obtain rfl := Nat.le_antisymm hi (Nat.lt_succ_iff.1 hk)
    exact ⟨_, le_rfl, _, _, .leaf h⟩
  | @split i high stop pivot _ _ _ _ h hlow hhigh ihlow ihhigh =>
    rcases Nat.lt_trichotomy k i with hlt | rfl | hlt
    · omega
    · exact ⟨_, le_rfl, _, _, .split h hlow hhigh⟩
    · by_cases hk' : k < high
      · obtain ⟨stop', hle, rest⟩ := ihlow hlt hk'
        exact ⟨stop', hle.trans hhigh.lt_stop.le, rest⟩
      · exact ihhigh (not_lt.1 hk') hk

theorem within (h : InOrder tree i stop pivots actions) {splits j : ℕ}
    (hd : Descends tree i splits j) : i ≤ j ∧ j < stop := by
  induction h generalizing splits j with
  | leaf h =>
    obtain ⟨-, rfl⟩ := hd.of_leaf h
    exact ⟨le_rfl, Nat.lt_succ_self _⟩
  | split h hlow hhigh ihlow ihhigh =>
    have hlt := hlow.lt_stop
    have hlt' := hhigh.lt_stop
    cases hd with
    | here _ => omega
    | lower h' hd =>
      have := ihlow hd
      omega
    | upper h' hd =>
      cases h.symm.trans h'
      have := ihhigh hd
      omega

theorem halves_within (h : InOrder tree i stop pivots actions) {k high : ℕ} {pivot : ℤ}
    (hi : i ≤ k) (hk : k < stop) (hsplit : tree[k]? = some (.split pivot high)) :
    (∀ splits j, Descends tree (k + 1) splits j → k < j ∧ j < high) ∧
      ∀ splits j, Descends tree high splits j → high ≤ j ∧ j < stop := by
  obtain ⟨stop', hle, _, _, hsub⟩ := h.subtree hi hk
  cases hsub with
  | leaf h' => cases h'.symm.trans hsplit
  | split h' hlow hhigh =>
    cases h'.symm.trans hsplit
    refine ⟨fun splits j hd => hlow.within hd, fun splits j hd => ?_⟩
    obtain ⟨h1, h2⟩ := hhigh.within hd
    exact ⟨h1, h2.trans_le hle⟩

end InOrder

variable {base : ℕ} {s : Segment} {ss : List Segment} {insts : List Inst}

theorem Halved.inOrder (h : Halved base s ss insts) (hlaid : LaidOut tree base insts) :
    InOrder tree base (base + insts.length) (ss.map Segment.start)
      ((s :: ss).map Segment.action) := by
  induction h with
  | leaf base s => exact .leaf (laidOut_cons.1 hlaid).1
  | @split base s u lower upper low high _ _ _ ihlow ihhigh =>
    rw [laidOut_cons, laidOut_append] at hlaid
    obtain ⟨hsplit, hlow, hhigh⟩ := hlaid
    have hwalk := InOrder.split hsplit (ihlow hlow) (ihhigh hhigh)
    have hstop : base + 1 + low.length + high.length =
        base + (.split u.start (base + 1 + low.length) :: (low ++ high)).length := by
      rw [List.length_cons, List.length_append]
      omega
    rwa [hstop, ← List.map_cons, ← List.map_append, ← List.map_append, List.cons_append] at hwalk

/-- Halving leaves at most half of the segments, rounded up, so that a way down passes no more
splits than it takes to halve them down to one. -/
theorem Halved.splits_le_clog (h : Halved base s ss insts) (hlaid : LaidOut tree base insts)
    {splits j : ℕ} (hd : Descends tree base splits j) : splits ≤ Nat.clog 2 (ss.length + 1) := by
  induction h generalizing splits with
  | leaf base s =>
    obtain ⟨rfl, -⟩ := hd.of_leaf (laidOut_cons.1 hlaid).1
    exact Nat.zero_le _
  | @split base s u lower upper _ _ hmid _ _ ihlow ihhigh =>
    rw [laidOut_cons, laidOut_append] at hlaid
    obtain ⟨hsplit, hlow, hhigh⟩ := hlaid
    have hclog : Nat.clog 2 ((lower ++ u :: upper).length + 1) =
        Nat.clog 2 ((lower.length + upper.length + 3) / 2) + 1 := by
      rw [List.length_append, List.length_cons]
      exact Nat.clog_of_two_le (by decide) (by omega)
    cases hd with
    | here _ => exact Nat.zero_le _
    | lower h' hd =>
      have hlower := ihlow hlow hd
      have hmono := Nat.clog_mono_right 2
        (show lower.length + 1 ≤ (lower.length + upper.length + 3) / 2 by omega)
      omega
    | upper h' hd =>
      cases hsplit.symm.trans h'
      have hupper := ihhigh hhigh hd
      have hmono := Nat.clog_mono_right 2
        (show upper.length + 1 ≤ (lower.length + upper.length + 3) / 2 by omega)
      omega

end

/-! ### Balance -/

structure Balanced (tree : Array Inst) (base : ℕ) (ss : List Segment) : Prop where
  /-- Two instructions for each segment but one. -/
  size_eq : tree.size = base + (2 * ss.length - 1)
  /-- A walk meets the actions of all segments, and between each two the start of the latter. -/
  walk : InOrder tree base tree.size (ss.tail.map Segment.start) (ss.map Segment.action)
  ascending : (ss.tail.map Segment.start).Pairwise (· < ·)
  /-- What is down the lower half of a split stands behind it, and what is down the upper half
  stands behind all that. -/
  apart : ∀ i pivot high, base ≤ i → tree[i]? = some (.split pivot high) →
    (∀ splits j, Descends tree (i + 1) splits j → i < j ∧ j < high) ∧
    ∀ splits j, Descends tree high splits j → high ≤ j ∧ j < tree.size
  shallow : ∀ splits j, Descends tree base splits j → splits ≤ Nat.clog 2 ss.length

theorem balanced_append (written : Array Inst) {s : Segment} {ss : List Segment}
    (h : Ascending (s :: ss)) :
    Balanced (written ++ (code ss.length written.size (s :: ss)).toArray) written.size
      (s :: ss) := by
  have hlaid := laidOut_append_toArray written (code ss.length written.size (s :: ss))
  have hhalved := @halved_code _ written.size s ss le_rfl
  generalize code ss.length written.size (s :: ss) = insts at hlaid hhalved ⊢
  have hsize : (written ++ insts.toArray).size = written.size + insts.length := by
    simp only [Array.size_append, List.size_toArray]
  have hwalk := hhalved.inOrder hlaid
  rw [← hsize] at hwalk
  refine ⟨?_, hwalk, ?_, ?_, ?_⟩
  · rw [hsize, hhalved.length_eq, List.length_cons]
    omega
  · exact List.pairwise_map.2 (List.pairwise_cons.1 h).2
  · intro i pivot high hi hsplit
    exact hwalk.halves_within hi (Array.getElem?_eq_some_iff.1 hsplit).1 hsplit
  · exact fun splits j hd => hhalved.splits_le_clog hlaid hd

theorem appendTree_balanced (m : PointMap Action) {written : Array Inst}
    (hfits : written.size + (2 * (segments m).length - 1) ≤ indexLimit) :
    ∃ new, appendTree (segments m) written = .ok (written ++ new) ∧
      Balanced (written ++ new) written.size (segments m) := by
  have hascending := ascending_segments m
  obtain ⟨s, ss, hsegments, -⟩ := exists_segments m
  rw [hsegments] at hfits hascending ⊢
  rw [List.length_cons] at hfits
  exact ⟨_, appendTree_eq le_rfl (by omega), balanced_append written hascending⟩

theorem segments_fit (m : PointMap Action) :
    (#[] : Array Inst).size + (2 * (segments m).length - 1) ≤ indexLimit := by
  obtain ⟨s, ss, hsegments, hlength⟩ := exists_segments m
  rw [hsegments, List.length_cons, indexLimit, Array.size_empty]
  omega

theorem appendTree_nil (m : PointMap Action) :
    appendTree (segments m) #[] = .ok (ofMap m).tree := by
  have hfits := segments_fit m
  obtain ⟨s, ss, hsegments, -⟩ := exists_segments m
  rw [hsegments] at hfits ⊢
  rw [appendTree_eq (Nat.le_succ ss.length) hfits, Array.empty_append, tree_ofMap hsegments]
  rfl

theorem balanced_ofMap (m : PointMap Action) : Balanced (ofMap m).tree 0 (segments m) := by
  obtain ⟨new, hnew, hbalanced⟩ := appendTree_balanced m (segments_fit m)
  rw [appendTree_nil] at hnew
  rw [Except.ok.inj hnew]
  exact hbalanced

/-- However a map of actions was made, there are segments to tell apart, and their tree, written
from scratch, is the one of the decision and is complete and balanced. So is the tree that is
written behind instructions that are there already, as a lower half and an upper half are, as long
as the indices fit into words. -/
theorem ofMap_balanced (m : PointMap Action) :
    1 ≤ (segments m).length ∧
      appendTree (segments m) #[] = .ok (ofMap m).tree ∧
      Balanced (ofMap m).tree 0 (segments m) ∧
      ∀ written : Array Inst, written.size + (2 * (segments m).length - 1) ≤ indexLimit →
        ∃ new, appendTree (segments m) written = .ok (written ++ new) ∧
          Balanced (written ++ new) written.size (segments m) := by
  refine ⟨?_, appendTree_nil m, balanced_ofMap m, fun written => appendTree_balanced m⟩
  obtain ⟨s, ss, hsegments, -⟩ := exists_segments m
  rw [hsegments]
  exact Nat.le_add_left 1 _

def alnum : PointMap Action :=
  .ofPieces [(⟨48, 58⟩, .goto 1 .keep false), (⟨65, 91⟩, .goto 2 .clear true),
    (⟨97, 123⟩, .goto 3 .keep false)]

theorem ofMap_balanced_alnum :
    InOrder (ofMap alnum).tree 0 13 [48, 58, 65, 91, 97, 123]
        ((segments alnum).map Segment.action) ∧
      (∀ splits j, Descends (ofMap alnum).tree 0 splits j → splits ≤ 3) ∧
      ∃ new, appendTree (segments alnum) #[.leaf .fail] = .ok (#[.leaf .fail] ++ new) ∧
        new.size = 13 := by
  have hlength : (segments alnum).length = 7 := by decide
  have hpivots : (segments alnum).tail.map Segment.start = [48, 58, 65, 91, 97, 123] := by decide
  obtain ⟨-, -, htree, hbehind⟩ := ofMap_balanced alnum
  have hwalk := htree.walk
  have hdepth := htree.shallow
  rw [htree.size_eq, hpivots, hlength] at hwalk
  rw [hlength] at hdepth
  obtain ⟨new, hnew, hbalanced⟩ := hbehind #[.leaf .fail] (by rw [hlength]; decide)
  have hsize := hbalanced.size_eq
  rw [Array.size_append, hlength] at hsize
  exact ⟨hwalk, fun splits j hd => (hdepth splits j hd).trans (by decide), new, hnew,
    Nat.add_left_cancel hsize⟩

end PatternAutomata.Decision
