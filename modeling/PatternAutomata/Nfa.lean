import PatternAutomata.Node

/-!
Nondeterministic automata with silent transitions. All patterns share the start state, and each
accepts in a state of its own.
-/

set_option autoImplicit false

namespace PatternAutomata

namespace Nfa

inductive Marker
  | start (id : GroupId)
  | stop (id : GroupId)
  deriving DecidableEq

/-- A transition without points is silent; only a silent one carries a marker. A reluctant
transition continues a repetition that prefers to stop. -/
structure Transition where
  target : Nat
  points : Option PointSet
  reluctant : Bool
  marker : Option Marker
  deriving DecidableEq

namespace Transition

def silent (target : Nat) : Transition := ⟨target, none, false, none⟩

def marking (marker : Marker) (target : Nat) : Transition := ⟨target, none, false, some marker⟩

def consuming (points : PointSet) (reluctant : Bool) (target : Nat) : Transition :=
  ⟨target, some points, reluctant, none⟩

def isSilent (t : Transition) : Bool := t.points.isNone

end Transition

structure State where
  /-- The pattern that the state accepts. -/
  domain : Option Nat
  transitions : List Transition
  deriving DecidableEq

namespace State

def isAccepting (s : State) : Bool := s.domain.isSome

def silentTargets (s : State) : List Nat :=
  (s.transitions.filter (·.isSilent)).map (·.target)

end State

def start : Nat := 0

end Nfa

structure Nfa where
  states : Array Nfa.State
  patterns : Nat
  deriving DecidableEq

namespace Nfa

def size (a : Nfa) : Nat := a.states.size

def transitions (a : Nfa) (id : Nat) : List Transition :=
  match a.states[id]? with
  | some s => s.transitions
  | none => []

def silentTargets (a : Nfa) (id : Nat) : List Nat :=
  match a.states[id]? with
  | some s => s.silentTargets
  | none => []

def domain? (a : Nfa) (id : Nat) : Option Nat := a.states[id]?.bind (·.domain)

def accepting (a : Nfa) : List Nat :=
  (List.range a.size).filter fun id => (a.domain? id).isSome

end Nfa

end PatternAutomata
