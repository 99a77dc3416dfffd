import PatternAutomata.Proofs.Bounds.Decision
import PatternAutomata.Proofs.Bounds.Explore
import PatternAutomata.Proofs.Generate

/-!
Reordering and generation by checked access. Each state has a new number, each number is that of a
state, and so the actions of a program lead to states of it.
-/

set_option autoImplicit false

namespace PatternAutomata

namespace Dfa

open Fault (read view write)

def checkedWalkOrder (d : Dfa) : Except Fault (List ℕ) := do
  let empty ← SparseSet.checkedOfCapacity d.size
  let reached ← empty.checkedExplore (view State.targets d.states) start
  let first ← reached.checkedToList
  let rest ← Fault.select (fun id => return !(← reached.checkedContains id)) (List.range d.size)
  return first ++ rest

def checkedRanks (order : List ℕ) : Except Fault (Array ℕ) :=
  order.zipIdx.foldlM (fun ranks (old, new) => write ranks old new)
    (Array.replicate order.length 0)

def State.checkedRenumber (ranks : Array ℕ) (s : State) : Except Fault State := do
  let _ ← s.targets.mapM (read ranks)
  return s.renumber fun target => ranks.getD target 0

def checkedReorder (d : Dfa) : Except Fault Dfa := do
  let order ← d.checkedWalkOrder
  let ranks ← checkedRanks order
  let states ← order.mapM fun old => do (← read d.states old).checkedRenumber ranks
  return ⟨states.toArray, d.patterns⟩

def checkedStateCode (d : Dfa) (accelerate : Bool) (id : ℕ) (s : State) :
    Except Fault StateCode := do
  let _ ← s.targets.mapM (read d.states)
  let decision ← Decision.checkedOfMap (s.transitions.filterMap fun t => some (d.action id s t))
  return ⟨s.domain?, decision, if accelerate then exits id s else [],
    length_ite_exits_le accelerate id s⟩

end Dfa

def Program.checkedOfDfa (d : Dfa) (accelerate : Bool) : Except Fault Program := do
  let d ← d.checkedReorder
  let states ← d.states.toList.zipIdx.mapM fun (s, id) => d.checkedStateCode accelerate id s
  return ⟨states.toArray, d.patterns⟩

namespace Dfa

open Fault (read view)

theorem ranked_lt (d : Dfa) : ∀ q ∈ d.walkOrder, q < d.walkOrder.length := by
  intro q hq
  rw [length_walkOrder]
  exact mem_walkOrder.1 hq

theorem checkedRanks_eq {order : List ℕ} (h : ∀ q ∈ order, q < order.length) :
    checkedRanks order = .ok (ranks order) ∧ (ranks order).size = order.length := by
  refine Fault.foldlM_eq_ok (P := fun xs : Array ℕ => xs.size = order.length) ?_ ?_
  · rintro xs hxs ⟨old, new⟩ hmem
    have hold := List.mem_of_getElem? (List.mem_zipIdx_iff_getElem?.1 hmem)
    refine ⟨Fault.write_of_lt (hxs ▸ h old hold) new, ?_⟩
    rw [Array.size_setIfInBounds, hxs]
  · exact Array.size_replicate

section

variable {d : Dfa} (hd : d.InRange)

include hd

theorem InRange.checkedWalkOrder_eq (hsize : d.size ≤ Ident.capacity) :
    d.checkedWalkOrder = .ok d.walkOrder := by
  have hempty : SparseSet.checkedOfCapacity d.size = .ok (.ofCapacity d.size) := if_pos hsize
  have hwell := SparseSet.wellFormed_ofCapacity d.size
  have hcap := SparseSet.capacity_ofCapacity d.size
  have hview : ∀ q < d.size, view State.targets d.states q = .ok (d.targets q) := by
    intro q hq
    rw [Fault.view_of_lt _ hq, targets, Array.getElem?_eq_getElem hq]
  have hsucc := hd.lt_of_mem_targets
  have hwalk : (SparseSet.ofCapacity d.size).checkedExplore (view State.targets d.states)
      Dfa.start = .ok d.walked :=
    hwell.checkedExplore_eq (by rwa [hcap]) (by rwa [hcap]) (by rw [hcap]; exact hd.start)
  obtain ⟨hwalked, hcapacity⟩ := d.walked_wellFormed
  have hrest : Fault.select (fun id => return !(← d.walked.checkedContains id))
      (List.range d.size) = .ok ((List.range d.size).filter (!d.walked.contains ·)) := by
    refine Fault.select_eq_ok fun id hid => ?_
    have hid : id < d.walked.capacity := hcapacity ▸ List.mem_range.1 hid
    rw [bind_of_ok (hwalked.checkedContains_eq hid)]
    rfl
  rw [checkedWalkOrder, bind_of_ok hempty, bind_of_ok hwalk, bind_of_ok hwalked.checkedToList_eq,
    bind_of_ok hrest]
  rfl

theorem InRange.checkedReorder_eq (hsize : d.size ≤ Ident.capacity) :
    d.checkedReorder = .ok d.reorder := by
  obtain ⟨hchecked, hranks⟩ := checkedRanks_eq d.ranked_lt
  rw [length_walkOrder] at hranks
  have hstates : d.walkOrder.mapM (fun old => do
      (← read d.states old).checkedRenumber (ranks d.walkOrder)) =
      .ok (d.walkOrder.filterMap fun old => d.states[old]?.map (State.renumber d.rank)) := by
    refine Fault.mapM_eq_filterMap fun old hold => ?_
    obtain ⟨s, hget⟩ : ∃ s, d.states[old]? = some s :=
      ⟨_, Array.getElem?_eq_getElem (mem_walkOrder.1 hold)⟩
    have htargets := hd.targets_lt hget
    rw [← hranks] at htargets
    obtain ⟨new, hnew⟩ := Fault.exists_mapM_read htargets
    refine ⟨_, ?_, by rw [hget]; rfl⟩
    rw [bind_of_ok (Fault.read_eq_ok.2 hget), State.checkedRenumber, bind_of_ok hnew]
    rfl
  rw [checkedReorder, bind_of_ok (hd.checkedWalkOrder_eq hsize), bind_of_ok hchecked,
    bind_of_ok hstates]
  rfl

theorem InRange.checkedStateCode_eq (accelerate : Bool) {id : ℕ} {s : State}
    (hs : d.states[id]? = some s) :
    d.checkedStateCode accelerate id s = .ok (d.stateCode accelerate id s) := by
  obtain ⟨reached, hreached⟩ := Fault.exists_mapM_read (hd.targets_lt hs)
  rw [checkedStateCode, bind_of_ok hreached, bind_of_ok (Decision.checkedOfMap_eq _)]
  rfl

end

end Dfa

namespace Program

theorem checkedOfDfa_eq {d : Dfa} (hd : d.InRange) (hsize : d.size ≤ Ident.capacity)
    (accelerate : Bool) : checkedOfDfa d accelerate = .ok (ofDfa d accelerate) := by
  have hstates : d.reorder.states.toList.zipIdx.mapM
      (fun (s, id) => d.reorder.checkedStateCode accelerate id s) =
      .ok (d.reorder.states.toList.zipIdx.map
        fun (s, id) => d.reorder.stateCode accelerate id s) := by
    refine Fault.mapM_eq_ok ?_
    rintro ⟨s, id⟩ hs
    refine hd.reorder.checkedStateCode_eq accelerate ?_
    rw [← Array.getElem?_toList]
    exact List.mem_zipIdx_iff_getElem?.1 hs
  rw [checkedOfDfa, bind_of_ok (hd.checkedReorder_eq hsize)]
  dsimp only
  rw [bind_of_ok hstates, ← List.mapIdx_eq_zipIdx_map, ← Array.toList_mapIdx, Array.toArray_toList]
  rfl

/-- The actions of a program lead to states of it, and so do the splits of its trees to
instructions. -/
structure InBounds (p : Program) : Prop where
  start : start < p.size
  decision : ∀ (id : ℕ) (s : StateCode), p.states[id]? = some s → s.decision.InBounds p.size

theorem inBounds_ofDfa {d : Dfa} (hd : d.InRange) (accelerate : Bool) :
    (ofDfa d accelerate).InBounds := by
  have hsize : (ofDfa d accelerate).size = d.reorder.size := Array.size_mapIdx
  have hstate : ∀ {id : ℕ} {code : StateCode}, (ofDfa d accelerate).states[id]? = some code →
      ∃ s, d.reorder.states[id]? = some s ∧ d.reorder.stateCode accelerate id s = code := by
    intro id code hcode
    rw [ofDfa, Array.getElem?_mapIdx] at hcode
    exact Option.map_eq_some_iff.1 hcode
  constructor
  · rw [hsize]
    exact hd.reorder.start
  · intro id code hcode
    obtain ⟨s, hs, rfl⟩ := hstate hcode
    rw [hsize]
    refine Decision.inBounds_ofMap fun p next update reluctant hp => ?_
    rw [PointMap.get?_filterMap] at hp
    obtain ⟨t, ht, haction⟩ := Option.bind_eq_some_iff.1 hp
    cases haction
    refine hd.reorder.target id p t ?_
    rw [Dfa.transition?, hs, Option.bind_some, ht]

end Program

end PatternAutomata
