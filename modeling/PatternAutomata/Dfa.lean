import PatternAutomata.Collections
import PatternAutomata.PointMap

/-!
Deterministic automata over points. A state records every pattern that accepts in it, its domains,
in ascending order; the lowest of them is the one reported. States are renumbered by a depth-first
walk from the start that follows transitions in ascending order of their points, so that a state is
followed by its first successor that is new.
-/

set_option autoImplicit false

namespace PatternAutomata

namespace Dfa

/-- A reluctant transition only continues repetitions that prefer to stop. -/
structure Transition where
  target : Nat
  reluctant : Bool
  deriving DecidableEq

structure State where
  transitions : PointMap Transition
  domains : List Nat
  deriving DecidableEq

namespace State

def isTerminal (s : State) : Bool := !s.domains.isEmpty

def isAmbiguous (s : State) : Bool := 1 < s.domains.length

/-- The pattern reported in the state: the one given first among those that accept. -/
def domain? (s : State) : Option Nat := s.domains.head?

def targets (s : State) : List Nat := s.transitions.valued.map fun (_, t) => t.target

end State

def start : Nat := 0

end Dfa

structure Dfa where
  states : Array Dfa.State
  patterns : Nat
  deriving DecidableEq

namespace Dfa

def size (d : Dfa) : Nat := d.states.size

def transition? (d : Dfa) (id : Nat) (p : Int) : Option Transition :=
  d.states[id]?.bind fun s => s.transitions.get? p

structure InRange (d : Dfa) : Prop where
  start : start < d.size
  target : ∀ q p t, d.transition? q p = some t → t.target < d.size

def next? (d : Dfa) (id : Nat) (p : Int) : Option Nat := (d.transition? id p).map (·.target)

def run? (d : Dfa) (id : Nat) (w : List Int) : Option Nat := w.foldlM d.next? id

theorem run?_append (d : Dfa) (id : Nat) (v w : List Int) :
    d.run? id (v ++ w) = (d.run? id v).bind fun q => d.run? q w := List.foldlM_append

theorem run?_singleton (d : Dfa) (id : Nat) (p : Int) : d.run? id [p] = d.next? id p :=
  bind_pure (d.next? id p)

theorem InRange.next?_lt {d : Dfa} (hd : d.InRange) {id next : Nat} {p : Int}
    (h : d.next? id p = some next) : next < d.size := by
  obtain ⟨t, ht, rfl⟩ := Option.map_eq_some_iff.1 h
  exact hd.target id p t ht

theorem InRange.run?_lt {d : Dfa} (hd : d.InRange) {id last : Nat} {w : List Int}
    (hid : id < d.size) (h : d.run? id w = some last) : last < d.size := by
  induction w generalizing id with
  | nil =>
    obtain rfl := Option.some.inj h
    exact hid
  | cons p w ih =>
    obtain ⟨next, hnext, hrest⟩ := Option.bind_eq_some_iff.1 h
    exact ih (hd.next?_lt hnext) hrest

def walk? (d : Dfa) (text : String) : Option Nat := d.run? start (text.toList.map Point.ofChar)

def targets (d : Dfa) (id : Nat) : List Nat :=
  match d.states[id]? with
  | some s => s.targets
  | none => []

def checkedNext (d : Dfa) (id : Nat) (p : Int) : Except Fault (Option Nat) :=
  (Fault.checkState d.size id).map fun id => d.next? id p

/-! ### Renumbering -/

/-- The states in their new order. Those that cannot be reached keep their order, at the end. -/
def walkOrder (d : Dfa) : List Nat :=
  let reached := (SparseSet.ofCapacity d.size).explore d.targets start
  reached.toList ++ (List.range d.size).filter (!reached.contains ·)

/-- The new number of each state of an order. -/
def ranks (order : List Nat) : Array Nat :=
  order.zipIdx.foldl (fun ranks (old, new) => ranks.setIfInBounds old new)
    (Array.replicate order.length 0)

def State.renumber (rank : Nat → Nat) (s : State) : State :=
  ⟨s.transitions.filterMap fun t => some { t with target := rank t.target }, s.domains⟩

def reorder (d : Dfa) : Dfa :=
  let order := d.walkOrder
  let ranks := ranks order
  let states := order.filterMap fun old =>
    d.states[old]?.map (State.renumber fun target => ranks.getD target 0)
  ⟨states.toArray, d.patterns⟩

end Dfa

end PatternAutomata
