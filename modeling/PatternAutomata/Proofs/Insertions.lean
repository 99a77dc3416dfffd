import PatternAutomata.Proofs.Bounds.Explore
import Mathlib.Data.List.Induction

/-!
What a sparse set holds after any calls. Clearing leaves both arrays as they are, so that what was
inserted before is still written there, in another order maybe; yet a set answers as a list would
that takes in each number once and is emptied when the set is cleared.
-/

set_option autoImplicit false

namespace PatternAutomata.SparseSet

inductive Call
  | insert (id : ℕ)
  | contains (id : ℕ)
  | clear
  deriving DecidableEq

namespace Call

def Fits (capacity : ℕ) : Call → Prop
  | insert id | contains id => id < capacity
  | clear => True

def inserted? : Call → Option ℕ
  | insert id => some id
  | contains _ | clear => none

def apply (s : SparseSet) : Call → SparseSet
  | insert id => (s.insert id).2
  | contains _ => s
  | clear => s.clear

def checkedApply (s : SparseSet) : Call → Except Fault SparseSet
  | insert id => (s.checkedInsert id).map Prod.snd
  | contains id => (s.checkedContains id).map fun _ => s
  | clear => .ok s.clear

end Call

def run (s : SparseSet) (calls : List Call) : SparseSet := calls.foldl Call.apply s

def checkedRun (s : SparseSet) (calls : List Call) : Except Fault SparseSet :=
  calls.foldlM Call.checkedApply s

def sinceClear (calls : List Call) : List Call := (calls.reverse.takeWhile (· ≠ .clear)).reverse

/-- The numbers inserted since the set was last cleared, in the order of the calls. -/
def inserted (calls : List Call) : List ℕ := (sinceClear calls).filterMap Call.inserted?

/-! ### Histories -/

section

variable (calls : List Call)

theorem sinceClear_clear : sinceClear (calls ++ [.clear]) = [] := by
  rw [sinceClear, List.reverse_append]
  rfl

theorem sinceClear_append {c : Call} (hc : c ≠ .clear) :
    sinceClear (calls ++ [c]) = sinceClear calls ++ [c] := by
  have htake : (c :: calls.reverse).takeWhile (· ≠ .clear) =
      c :: calls.reverse.takeWhile (· ≠ .clear) := List.takeWhile_cons_of_pos (decide_eq_true hc)
  rw [sinceClear, List.reverse_append, List.reverse_singleton, List.singleton_append, htake,
    List.reverse_cons]
  rfl

theorem inserted_clear : inserted (calls ++ [.clear]) = [] := by
  rw [inserted, sinceClear_clear]
  rfl

theorem inserted_append {c : Call} (hc : c ≠ .clear) :
    inserted (calls ++ [c]) = inserted calls ++ c.inserted?.toList := by
  rw [inserted, sinceClear_append calls hc, List.filterMap_append, inserted]
  cases c <;> rfl

theorem eraseDups_append_singleton (ids : List ℕ) (id : ℕ) :
    (ids ++ [id]).eraseDups = if id ∈ ids then ids.eraseDups else ids.eraseDups ++ [id] := by
  rw [List.eraseDups_append, List.removeAll]
  split
  · rename_i hid
    rw [List.filter_cons_of_neg (by simpa using hid)]
    exact List.append_nil _
  · rename_i hid
    rw [List.filter_cons_of_pos (by simpa using hid)]
    rfl

end

/-! ### Runs -/

/-- The set stands for the list of `ids`, each of which counts once. -/
structure Holds (s : SparseSet) (capacity : ℕ) (ids : List ℕ) : Prop where
  wellFormed : s.WellFormed
  capacity_eq : s.capacity = capacity
  toList_eq : s.toList = ids.eraseDups

section

variable {s : SparseSet} {capacity : ℕ} {ids : List ℕ}

theorem holds_ofCapacity (capacity : ℕ) : (ofCapacity capacity).Holds capacity [] where
  wellFormed := wellFormed_ofCapacity capacity
  capacity_eq := capacity_ofCapacity capacity
  toList_eq := toList_ofCapacity capacity

theorem Holds.contains_iff (h : s.Holds capacity ids) {id : ℕ} :
    s.contains id = true ↔ id ∈ ids := by
  rw [← h.wellFormed.mem_toList, h.toList_eq, List.mem_eraseDups]

theorem Holds.insert (h : s.Holds capacity ids) {id : ℕ} (hid : id < capacity) :
    (s.insert id).2.Holds capacity (ids ++ [id]) where
  wellFormed := h.wellFormed.insert id
  capacity_eq := (capacity_insert s id).trans h.capacity_eq
  toList_eq := by
    have hid : id < s.capacity := h.capacity_eq ▸ hid
    rw [eraseDups_append_singleton, ← h.toList_eq]
    split
    · rename_i hmem
      rw [insert_eq_self h.wellFormed (.inr (h.contains_iff.2 hmem))]
    · rename_i hmem
      exact h.wellFormed.toList_insert hid fun hc => hmem (h.contains_iff.1 hc)

theorem Holds.clear (h : s.Holds capacity ids) : s.clear.Holds capacity [] where
  wellFormed := h.wellFormed.clear
  capacity_eq := h.capacity_eq
  toList_eq := by
    rw [toList, SparseSet.clear, Array.extract_zero]
    rfl

theorem insert_fst_iff (s : SparseSet) (id : ℕ) :
    (s.insert id).1 = true ↔ ¬ s.contains id = true := by
  rw [SparseSet.insert]
  split
  · rename_i hc
    exact ⟨fun h => (by cases h), fun h => absurd hc h⟩
  · rename_i hc
    split
    · exact ⟨fun _ => hc, fun _ => rfl⟩
    · exact ⟨fun _ => hc, fun _ => rfl⟩

/-- A call does to a set what it does to the list that the set stands for. -/
theorem Holds.apply {calls : List Call} {c : Call} (h : s.Holds capacity (inserted calls))
    (hc : c.Fits capacity) : (c.apply s).Holds capacity (inserted (calls ++ [c])) := by
  cases c with
  | insert id =>
    have hlist : inserted (calls ++ [.insert id]) = inserted calls ++ [id] :=
      inserted_append calls nofun
    rw [hlist]
    exact h.insert hc
  | contains id =>
    have hlist : inserted (calls ++ [.contains id]) = inserted calls :=
      (inserted_append (c := .contains id) calls nofun).trans (List.append_nil _)
    rw [hlist]
    exact h
  | clear =>
    rw [inserted_clear]
    exact h.clear

theorem holds_run {calls : List Call} (hcalls : ∀ c ∈ calls, c.Fits capacity) :
    ((ofCapacity capacity).run calls).Holds capacity (inserted calls) := by
  induction calls using List.reverseRecOn with
  | nil => exact holds_ofCapacity capacity
  | append_singleton calls c ih =>
    rw [run, List.foldl_append]
    have hbefore := ih fun d hd => hcalls d (List.mem_append_left _ hd)
    exact hbefore.apply (hcalls c (List.mem_append_right _ (List.mem_singleton_self c)))

/-- A call on numbers below the capacity stays inside of the two arrays. -/
theorem WellFormed.checkedApply_eq (h : s.WellFormed) {c : Call} (hc : c.Fits s.capacity) :
    c.checkedApply s = .ok (c.apply s) ∧ (c.apply s).WellFormed ∧
      (c.apply s).capacity = s.capacity := by
  cases c with
  | insert id =>
    refine ⟨?_, h.insert id, capacity_insert s id⟩
    rw [Call.checkedApply, h.checkedInsert_eq hc]
    rfl
  | contains id =>
    refine ⟨?_, h, rfl⟩
    rw [Call.checkedApply, h.checkedContains_eq hc]
    rfl
  | clear => exact ⟨rfl, h.clear, rfl⟩

theorem WellFormed.checkedRun_eq (h : s.WellFormed) {calls : List Call}
    (hcalls : ∀ c ∈ calls, c.Fits s.capacity) : s.checkedRun calls = .ok (s.run calls) := by
  refine (Fault.foldlM_eq_ok (P := fun t => t.WellFormed ∧ t.capacity = s.capacity) ?_ ⟨h, rfl⟩).1
  rintro t ⟨ht, hcap⟩ c hm
  obtain ⟨heq, hwell, hcap'⟩ := ht.checkedApply_eq (hcap ▸ hcalls c hm)
  exact ⟨heq, hwell, hcap'.trans hcap⟩

end

/-- Whatever is called on a set, with numbers below its capacity, no call leaves the two arrays. By
then its members are the numbers inserted since it was last cleared, each of them once and in the
order of their first insertions. These are the numbers that it contains, and the others are those
that are new to it. -/
theorem run_refines_list (capacity : ℕ) {calls : List Call}
    (hcalls : ∀ c ∈ calls, c.Fits capacity) :
    ∃ s, (ofCapacity capacity).checkedRun calls = .ok s ∧ (ofCapacity capacity).run calls = s ∧
      s.length ≤ capacity ∧
      s.checkedToList = .ok s.toList ∧ s.toList = (inserted calls).eraseDups ∧ s.toList.Nodup ∧
      ∀ id < capacity,
        s.checkedContains id = .ok (s.contains id) ∧
        (s.contains id = true ↔ id ∈ inserted calls) ∧
        s.checkedInsert id = .ok (s.insert id) ∧
        ((s.insert id).1 = true ↔ id ∉ inserted calls) := by
  have hfits : ∀ c ∈ calls, c.Fits (ofCapacity capacity).capacity := by
    rwa [capacity_ofCapacity]
  have hrun := (wellFormed_ofCapacity capacity).checkedRun_eq hfits
  have hholds := holds_run hcalls
  generalize (ofCapacity capacity).run calls = s at hrun hholds
  have hwell := hholds.wellFormed
  have hcap := hholds.capacity_eq
  refine ⟨s, hrun, rfl, hcap ▸ hwell.length_le, hwell.checkedToList_eq, hholds.toList_eq,
    hwell.nodup_toList, fun id hid => ?_⟩
  have hid : id < s.capacity := hcap.symm ▸ hid
  exact ⟨hwell.checkedContains_eq hid, hholds.contains_iff, hwell.checkedInsert_eq hid,
    (insert_fst_iff s id).trans (not_congr hholds.contains_iff)⟩

/-- The set is cleared, and then 2 gets the place that 7 had, to which 7 points still. -/
def displaced : List Call :=
  [.insert 7, .insert 2, .insert 7, .clear, .insert 2, .contains 7, .insert 9, .insert 2]

theorem run_refines_list_displaced :
    (∀ c ∈ displaced, c.Fits 10) ∧ ∃ s, (ofCapacity 10).checkedRun displaced = .ok s ∧
      s.toList = [2, 9] ∧ ¬ s.contains 7 = true ∧ (s.insert 7).1 = true := by
  have hfits : ∀ c ∈ displaced, c.Fits 10 := by simp [displaced, Call.Fits]
  obtain ⟨s, hrun, -, -, -, hlist, -, hids⟩ := run_refines_list 10 hfits
  obtain ⟨-, hcontains, -, hinsert⟩ := hids 7 (by decide)
  have hseven : 7 ∉ inserted displaced := by decide
  exact ⟨hfits, s, hrun, hlist.trans (by decide), mt hcontains.1 hseven, hinsert.2 hseven⟩

end PatternAutomata.SparseSet
