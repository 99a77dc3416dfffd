import PatternAutomata.Proofs.Bounds.Decision

/-!
Looking a point up as a program does it: a binary search in the exact table, and then, if the point
is not in there, the way down the tree. Both by checked access. The exact table ascends, so that the
search finds a point if the table holds it.
-/

set_option autoImplicit false

namespace PatternAutomata.Decision

open Fault (read)

/-- Whether the table has an entry for `p` at an index from `lo` to below `hi`. The half that cannot
hold it is dropped in each round. -/
def search (table : Array (ℤ × Action)) (p : ℤ) (lo hi : ℕ) : Except Fault (Option Action) :=
  if lo < hi then do
    let mid := (lo + hi) / 2
    let entry ← read table mid
    if entry.1 = p then return some entry.2
    else if entry.1 < p then search table p (mid + 1) hi
    else search table p lo mid
  else return none
termination_by hi - lo

def lookupBySearch (d : Decision) (p : ℤ) : Except Fault Action := do
  match ← search d.exact.toArray p 0 d.exact.length with
  | some action => return action
  | none => checkedFollow d.tree p d.tree.size 0

def Sorted (table : List (ℤ × Action)) : Prop := table.Pairwise fun e f => e.1 < f.1

section Search

variable {table : List (ℤ × Action)} {p : ℤ}

theorem Sorted.index_lt (h : Sorted table) {i j : ℕ} {e f : ℤ × Action} (he : table[i]? = some e)
    (hf : table[j]? = some f) (hlt : e.1 < f.1) : i < j := by
  obtain ⟨hi, rfl⟩ := List.getElem?_eq_some_iff.1 he
  obtain ⟨hj, rfl⟩ := List.getElem?_eq_some_iff.1 hf
  rcases Nat.lt_trichotomy i j with hij | rfl | hij
  · exact hij
  · exact absurd hlt (lt_irrefl _)
  · exact absurd hlt (List.pairwise_iff_getElem.1 h j i hj hi hij).asymm

theorem Sorted.find?_eq (h : Sorted table) {i : ℕ} {e : ℤ × Action} (he : table[i]? = some e) :
    table.find? (fun entry => entry.1 == e.1) = some e := by
  obtain ⟨hi, rfl⟩ := List.getElem?_eq_some_iff.1 he
  rw [List.find?_eq_some_iff_getElem]
  refine ⟨beq_self_eq_true _, i, hi, rfl, fun j hj => ?_⟩
  have hlt := List.pairwise_iff_getElem.1 h j i (hj.trans hi) hi hj
  simpa using hlt.ne

/-- The search finds the entry of a point, if none stands outside of the indices searched. -/
theorem Sorted.search_eq (h : Sorted table) {lo hi : ℕ} (hhi : hi ≤ table.length)
    (hin : ∀ i e, table[i]? = some e → e.1 = p → lo ≤ i ∧ i < hi) :
    search table.toArray p lo hi =
      .ok ((table.find? fun entry => entry.1 == p).map Prod.snd) := by
  induction hn : hi - lo using Nat.strong_induction_on generalizing lo hi with
  | _ n ih =>
    rw [search]
    split
    · rename_i hlt
      have hmid : (lo + hi) / 2 < table.length := by omega
      have hentry := List.getElem?_eq_getElem hmid
      have hread : read table.toArray ((lo + hi) / 2) = .ok table[(lo + hi) / 2] := by
        rw [Fault.read_eq_ok, List.getElem?_toArray, hentry]
      dsimp only
      rw [bind_of_ok hread]
      split
      · rename_i heq
        subst heq
        rw [h.find?_eq hentry]
        rfl
      · rename_i hne
        split
        · rename_i hbelow
          refine ih (hi - ((lo + hi) / 2 + 1)) (by omega) hhi (fun i e he hep => ?_) rfl
          exact ⟨h.index_lt hentry he (hep ▸ hbelow), (hin i e he hep).2⟩
        · rename_i hnot
          have habove := lt_of_le_of_ne (not_lt.1 hnot) (Ne.symm hne)
          refine ih ((lo + hi) / 2 - lo) (by omega) hmid.le (fun i e he hep => ?_) rfl
          exact ⟨(hin i e he hep).1, h.index_lt he hentry (hep ▸ habove)⟩
    · rename_i hge
      have hnone : table.find? (fun entry => entry.1 == p) = none := by
        rw [List.find?_eq_none]
        intro e he
        obtain ⟨i, hi⟩ := List.mem_iff_getElem?.1 he
        simp only [beq_iff_eq]
        intro hep
        have := hin i e hi hep
        omega
      rw [hnone]
      rfl

theorem lookupBySearch_eq {d : Decision} (h : Sorted d.exact) (p : ℤ) :
    d.lookupBySearch p = d.checkedLookup p := by
  have hsearch : search d.exact.toArray p 0 d.exact.length =
      .ok ((d.exact.find? fun entry => entry.1 == p).map Prod.snd) :=
    h.search_eq le_rfl fun i e he _ => ⟨i.zero_le, (List.getElem?_eq_some_iff.1 he).1⟩
  rw [lookupBySearch, bind_of_ok hsearch, checkedLookup]
  cases d.exact.find? fun entry => entry.1 == p <;> rfl

end Search

theorem sorted_exact (m : PointMap Action) : Sorted (ofMap m).exact := by
  have hexact : (ofMap m).exact =
      (m.runs.filter isExact).map fun r => (r.span.start, runAction r) := rfl
  rw [hexact, Sorted, List.pairwise_map]
  refine (m.pairwise_runs.sublist List.filter_sublist).imp_of_mem fun hr _ hle => ?_
  exact (m.run_bounds (List.mem_of_mem_filter hr)).2.1.trans_le hle

theorem exists_size (m : PointMap Action) : ∃ size, ∀ p next update reluctant,
    m.get? p = some (.goto next update reluctant) → next < size := by
  have hruns : ∀ rs : List (PointMap.Run Action), ∃ size, ∀ r ∈ rs, ∀ next update reluctant,
      r.value = some (.goto next update reluctant) → next < size := by
    intro rs
    induction rs with
    | nil => exact ⟨0, by simp⟩
    | cons r rs ih =>
      obtain ⟨size, h⟩ := ih
      cases hvalue : r.value with
      | none => exact ⟨size, by simpa [hvalue] using h⟩
      | some action =>
        cases action with
        | fail => exact ⟨size, by simpa [hvalue] using h⟩
        | goto next update reluctant =>
          refine ⟨max size (next + 1), fun t ht next' update' reluctant' hv => ?_⟩
          rcases List.mem_cons.1 ht with rfl | ht
          · cases hvalue.symm.trans hv
            omega
          · have := h t ht next' update' reluctant' hv
            omega
  obtain ⟨size, h⟩ := hruns m.runs
  refine ⟨size, fun p next update reluctant hget => ?_⟩
  obtain ⟨r, hr, hc⟩ := m.exists_mem_runs (PointMap.inDomain_of_get? hget)
  exact h r hr next update reluctant ((m.get?_of_mem_runs hr hc).symm.trans hget)

/-- However a map of actions was made, its exact points ascend, and looking a point up in its
decision comes to an end inside of the table and of the tree, with the action of the point in the
map, or with none where the point has none. -/
theorem lookup_follows_map (m : PointMap Action) {p : ℤ} (hp : Point.InDomain p) :
    (ofMap m).exact.Pairwise (fun e f => e.1 < f.1) ∧
      (ofMap m).lookupBySearch p = .ok ((m.get? p).getD .fail) ∧
      (ofMap m).lookup p = (m.get? p).getD .fail := by
  obtain ⟨size, hsize⟩ := exists_size m
  have hsorted := sorted_exact m
  have hlookup := lookup_ofMap m hp
  refine ⟨hsorted, ?_, hlookup⟩
  rw [lookupBySearch_eq hsorted, (inBounds_ofMap hsize).checkedLookup_eq, hlookup]

def scattered : PointMap Action :=
  .ofPieces [(⟨-1, 0⟩, .goto 1 .keep false), (⟨97, 98⟩, .goto 2 .clear true),
    (⟨98, 99⟩, .goto 3 .keep false), (⟨99, 0x110000⟩, .goto 1 .keep false)]

theorem lookup_follows_map_scattered :
    Point.InDomain 98 ∧ (ofMap scattered).lookupBySearch 98 = .ok (.goto 3 .keep false) := by
  have hp : Point.InDomain 98 := by decide
  obtain ⟨-, h, -⟩ := lookup_follows_map scattered hp
  have hget : (scattered.get? 98).getD .fail = .goto 3 .keep false := by decide
  exact ⟨hp, hget ▸ h⟩

end PatternAutomata.Decision
