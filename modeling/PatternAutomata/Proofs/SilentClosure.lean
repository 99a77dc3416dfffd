import PatternAutomata.Proofs.Bounds.Subset
import Mathlib.Algebra.Order.BigOperators.Group.Finset

/-!
Silent closures round by round. One round takes the top off a stack on which a state may stand any
number of times, and records it if it is new. A round uses up either a place on the stack or the
silent transitions of a state, so the stack runs empty; and where the search passes over what was
recorded before, that is because the set was closed.
-/

set_option autoImplicit false

namespace PatternAutomata.SparseSet

open Finset (range)

structure Sweep where
  stack : List ℕ
  set : SparseSet

namespace Sweep

/-- One round by checked access. There is nothing to do once the stack is empty. -/
def checkedStep (successors : ℕ → Except Fault (List ℕ)) : Sweep → Except Fault Sweep
  | ⟨[], s⟩ => .ok ⟨[], s⟩
  | ⟨id :: rest, s⟩ => do
    let (isNew, s) ← s.checkedInsert id
    if isNew then return ⟨(← successors id) ++ rest, s⟩ else return ⟨rest, s⟩

def checkedRun (successors : ℕ → Except Fault (List ℕ)) : (rounds : ℕ) → Sweep → Except Fault Sweep
  | 0, x => .ok x
  | rounds + 1, x => x.checkedStep successors >>= checkedRun successors rounds

variable {checked : ℕ → Except Fault (List ℕ)} {successors : ℕ → List ℕ}

/-- What is left to do: a round for each place on the stack, and one for each successor of a node
that is not recorded yet. -/
def work (successors : ℕ → List ℕ) (x : Sweep) : ℕ :=
  x.stack.length +
    ∑ id ∈ (range x.set.capacity).filter fun id => x.set.contains id = false,
      (successors id).length

theorem checkedRun_nil (s : SparseSet) (rounds : ℕ) :
    checkedRun checked rounds ⟨[], s⟩ = .ok ⟨[], s⟩ := by
  induction rounds with
  | zero => rfl
  | succ rounds ih => exact ih

section

variable {s : SparseSet} {id : ℕ} {rest : List ℕ} (h : s.WellFormed) (hid : id < s.capacity)

include h hid

theorem checkedStep_known (hc : s.contains id = true) :
    checkedStep checked ⟨id :: rest, s⟩ = .ok ⟨rest, s⟩ := by
  have hinsert : s.insert id = (false, s) := if_pos hc
  rw [checkedStep, bind_of_ok (h.checkedInsert_eq hid), hinsert]
  rfl

theorem checkedStep_new (hc : ¬ s.contains id = true)
    (hchecked : checked id = .ok (successors id)) :
    checkedStep checked ⟨id :: rest, s⟩ = .ok ⟨successors id ++ rest, (s.insert id).2⟩ := by
  have hinsert : (s.insert id).1 = true := by
    rw [SparseSet.insert, if_neg hc, if_pos (h.size_slots ▸ hid)]
  rw [checkedStep, bind_of_ok (h.checkedInsert_eq hid)]
  dsimp only
  rw [if_pos hinsert, bind_of_ok hchecked]
  rfl

theorem work_insert (hc : ¬ s.contains id = true) :
    work successors ⟨successors id ++ rest, (s.insert id).2⟩ + 1 =
      work successors ⟨id :: rest, s⟩ := by
  have hleft : ((range s.capacity).filter fun a => (s.insert id).2.contains a = false) =
      ((range s.capacity).filter fun a => s.contains a = false).erase id := by
    ext a
    have hiff := h.contains_insert (a := a) hid
    simp only [Finset.mem_filter, Finset.mem_erase, ← Bool.not_eq_true, hiff, not_or]
    tauto
  have hmem : id ∈ (range s.capacity).filter fun a => s.contains a = false := by
    simpa [hid] using hc
  have hsum := Finset.add_sum_erase _ (fun a => (successors a).length) hmem
  simp only [work, capacity_insert, hleft, List.length_append, List.length_cons]
  omega

end

/-- A search ends within the work that it has, with nothing on its stack, and has recorded what a
search does that drops known nodes together. -/
theorem checkedRun_eq {rounds left : ℕ} {stack : List ℕ} {s : SparseSet} (h : s.WellFormed)
    (hchecked : ∀ a < s.capacity, checked a = .ok (successors a))
    (hsucc : ∀ a, ∀ b ∈ successors a, b < s.capacity) (hstack : ∀ a ∈ stack, a < s.capacity)
    (hleft : s.capacity ≤ s.length + left) (hwork : work successors ⟨stack, s⟩ ≤ rounds) :
    checkedRun checked rounds ⟨stack, s⟩ = .ok ⟨[], exploreStack successors left stack s⟩ := by
  induction rounds generalizing left stack s with
  | zero =>
    obtain rfl : stack = [] := List.length_eq_zero_iff.1 (by simp only [work] at hwork; omega)
    cases left <;> rfl
  | succ rounds ih =>
    cases stack with
    | nil =>
      rw [checkedRun_nil]
      cases left <;> rfl
    | cons id rest =>
      have hid : id < s.capacity := hstack id List.mem_cons_self
      have hrest : ∀ a ∈ rest, a < s.capacity := fun a ha => hstack a (List.mem_cons_of_mem _ ha)
      by_cases hc : s.contains id = true
      · have hskip : exploreStack successors left (id :: rest) s =
            exploreStack successors left rest s := by
          cases left with
          | zero => rfl
          | succ left => rw [exploreStack, exploreStack, List.dropWhile_cons_of_pos hc]
        rw [checkedRun, bind_of_ok (checkedStep_known h hid hc), hskip]
        refine ih h hchecked hsucc hrest hleft ?_
        simp only [work, List.length_cons] at hwork ⊢
        omega
      · have hlen := h.length_lt hid hc
        obtain ⟨left, rfl⟩ : ∃ l, left = l + 1 := Nat.exists_eq_succ_of_ne_zero (by omega)
        have hcap := capacity_insert s id
        have hwork' := @work_insert successors s id rest h hid hc
        rw [checkedRun, bind_of_ok (checkedStep_new h hid hc (hchecked id hid)), exploreStack,
          List.dropWhile_cons_of_neg hc]
        refine ih (h.insert id) (by rwa [hcap]) (by rwa [hcap])
          (lt_of_mem_pushed hsucc hstack (List.Subset.refl _)) ?_ (by omega)
        rw [hcap, h.length_insert hid hc]
        omega

end Sweep

end PatternAutomata.SparseSet

namespace PatternAutomata.Nfa

theorem target_lt_of_states {a : Nfa}
    (h : ∀ s ∈ a.states.toList, ∀ t ∈ s.transitions, t.target < a.size) :
    ∀ i, ∀ t ∈ a.transitions i, t.target < a.size := by
  intro i t ht
  rw [transitions] at ht
  cases hs : a.states[i]? with
  | none =>
    rw [hs] at ht
    cases ht
  | some s =>
    rw [hs] at ht
    exact h s (Array.mem_toList_iff.2 (Array.mem_of_getElem? hs)) t ht

end PatternAutomata.Nfa

namespace PatternAutomata.Subset

open Fault (view)
open Nfa (AnyPath InRange pointsOf)
open SparseSet (Closed Sweep)

structure Saturated (a : Nfa) (s : SparseSet) : Prop where
  wellFormed : s.WellFormed
  capacity_eq : s.capacity = a.size
  closed : ∀ i, s.contains i = true → ∀ t ∈ a.transitions i, t.points = none →
    s.contains t.target = true

section

variable {a : Nfa} {s : SparseSet}

theorem closed_iff : Closed a.silentTargets s ↔ ∀ i, s.contains i = true →
    ∀ t ∈ a.transitions i, t.points = none → s.contains t.target = true := by
  constructor
  · intro h i hi t ht hs
    exact h i hi t.target (Nfa.mem_silentTargets.2 ⟨t, ht, hs, rfl⟩)
  · intro h i hi j hj
    obtain ⟨t, ht, hs, rfl⟩ := Nfa.mem_silentTargets.1 hj
    exact h i hi t ht hs

theorem reaches_iff {i j : ℕ} : SparseSet.Reaches a.silentTargets i j ↔
    ∃ ts, AnyPath a i ts j ∧ pointsOf ts = [] :=
  ⟨Nfa.path_of_reaches, fun ⟨_, hp, hn⟩ => Nfa.reaches_of_path hp hn⟩

theorem saturated_clear (hs : s.WellFormed) (hc : s.capacity = a.size) : Saturated a s.clear where
  wellFormed := hs.clear
  capacity_eq := hc
  closed i hi := by
    rw [SparseSet.contains_clear] at hi
    cases hi

variable (ha : InRange a)

include ha

theorem Saturated.closure (h : Saturated a s) {i : ℕ} (hi : i < a.size) :
    Saturated a (closure a i s) where
  wellFormed := (closure_wellFormed i h.wellFormed).1
  capacity_eq := (closure_wellFormed i h.wellFormed).2.trans h.capacity_eq
  closed := closed_iff.1 <| SparseSet.explore_closed h.wellFormed
    (h.capacity_eq ▸ silentTargets_lt ha) (h.capacity_eq ▸ hi) (closed_iff.2 h.closed)

theorem Saturated.reached (h : Saturated a s) {os : List Outgoing}
    (ho : ∀ o ∈ os, o.target < a.size) : Saturated a (reached a os s) :=
  List.foldlRecOn os _ (saturated_clear h.wellFormed h.capacity_eq) fun _ ht o hm =>
    ht.closure ha (ho o hm)

/-- The search for a closure is over once there were more rounds than there are silent
transitions. -/
theorem Saturated.checkedRun_closure (h : Saturated a s) {i rounds : ℕ} (hi : i < a.size)
    (hrounds : ∑ j ∈ Finset.range a.size, (a.silentTargets j).length < rounds) :
    Sweep.checkedRun (view (·.silentTargets) a.states) rounds ⟨[i], s⟩ =
      .ok ⟨[], Subset.closure a i s⟩ := by
  have hview : ∀ j < s.capacity, view (·.silentTargets) a.states j = .ok (a.silentTargets j) := by
    intro j hj
    have hlt : j < a.states.size := hj.trans_eq h.capacity_eq
    rw [Fault.view_of_lt _ hlt, Nfa.silentTargets, Array.getElem?_eq_getElem hlt]
  have hwork : Sweep.work a.silentTargets ⟨[i], s⟩ ≤ rounds := by
    have hsum : ∑ j ∈ (Finset.range a.size).filter fun j => s.contains j = false,
          (a.silentTargets j).length ≤ ∑ j ∈ Finset.range a.size, (a.silentTargets j).length :=
      Finset.sum_le_sum_of_subset (Finset.filter_subset _ _)
    simp only [Sweep.work, h.capacity_eq, List.length_singleton]
    omega
  refine Sweep.checkedRun_eq h.wellFormed hview ?_ ?_ (Nat.le_add_left _ _) hwork
  · exact h.capacity_eq ▸ silentTargets_lt ha
  · intro j hj
    rwa [List.mem_singleton.1 hj, h.capacity_eq]

end

/-- In an automaton whose transitions stay inside of it, with silent cycles or without, the search
for the closure of any state, started with that state on its stack and a set that no silent
transition leads out of, comes to an end with nothing on its stack. The set then holds what it held
and what silent paths from the state lead to, and nothing else, and again no silent transition leads
out of it. So this goes on for the closures of further states, and it can begin with a cleared set:
`reached` clears its set and adds one closure after another. -/
theorem closure_accumulates {a : Nfa} (htarget : ∀ i, ∀ t ∈ a.transitions i, t.target < a.size)
    {start : ℕ} (hstart : start < a.size) {s : SparseSet} (hs : Saturated a s) :
    (∀ rounds, ∑ i ∈ Finset.range a.size, (a.silentTargets i).length < rounds →
      Sweep.checkedRun (view (·.silentTargets) a.states) rounds ⟨[start], s⟩ =
        .ok ⟨[], closure a start s⟩) ∧
    (∀ i, (closure a start s).contains i = true ↔
      s.contains i = true ∨ ∃ ts, AnyPath a start ts i ∧ pointsOf ts = []) ∧
    Saturated a (closure a start s) ∧
    ∀ os : List Outgoing, (∀ o ∈ os, o.target < a.size) → Saturated a (reached a os s) := by
  have ha : InRange a := ⟨Nat.zero_lt_of_lt hstart, htarget⟩
  refine ⟨fun rounds hrounds => hs.checkedRun_closure ha hstart hrounds, fun i => ?_,
    hs.closure ha hstart, fun os ho => hs.reached ha ho⟩
  rw [contains_closure ha hs.wellFormed hs.capacity_eq (closed_iff.2 hs.closed) hstart, reaches_iff]

def looped : Nfa where
  states := #[
    ⟨none, [.silent 1, .silent 2, .silent 1]⟩,
    ⟨none, [.silent 0, .silent 1, .consuming (.single 'a') false 3]⟩,
    ⟨none, [.silent 3]⟩,
    ⟨some 0, [.consuming .endOfInput false 3]⟩]
  patterns := 1

theorem closure_accumulates_looped :
    ∃ s, Saturated looped s ∧ s.toList = [2, 3] ∧
      Sweep.checkedRun (view (·.silentTargets) looped.states) 7 ⟨[0], s⟩ =
        .ok ⟨[], closure looped 0 s⟩ ∧
      (closure looped 0 s).toList = [2, 3, 0, 1] ∧
      ∃ ts, AnyPath looped 0 ts 1 ∧ pointsOf ts = [] := by
  have htarget := Nfa.target_lt_of_states (a := looped) (by decide)
  have hempty : Saturated looped (SparseSet.ofCapacity 4).clear :=
    saturated_clear (SparseSet.wellFormed_ofCapacity 4) (by decide)
  obtain ⟨-, -, hs, -⟩ := closure_accumulates htarget (by decide : 2 < looped.size) hempty
  obtain ⟨hrun, hmem, -, -⟩ := closure_accumulates htarget (by decide : 0 < looped.size) hs
  refine ⟨_, hs, by decide, hrun 7 (by decide), by decide, ?_⟩
  exact ((hmem 1).1 (by decide)).resolve_left (by decide)

end PatternAutomata.Subset
