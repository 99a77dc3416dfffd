import PatternAutomata.Dfa

/-!
Programs: the executable form of a deterministic automaton. The code of a state says what to do on
each point. An action carries all that a matcher needs: the next state, how the pattern matched last
changes, and whether only reluctant repetitions go on.
-/

set_option autoImplicit false

namespace PatternAutomata

inductive DomainUpdate
  | keep
  | set (pattern : Nat)
  | clear
  deriving DecidableEq

def DomainUpdate.apply : DomainUpdate → Option Nat → Option Nat
  | keep, domain => domain
  | set pattern, _ => some pattern
  | clear, _ => none

inductive Action
  | fail
  | goto (next : Nat) (update : DomainUpdate) (reluctant : Bool)
  deriving DecidableEq

namespace Decision

/-- An instruction of a decision tree laid out in a row. A split goes on with the next instruction
for points below the pivot, and with the one at `high` for others. -/
inductive Inst
  | split (pivot : Int) (high : Nat)
  | leaf (action : Action)
  deriving DecidableEq

end Decision

/-- What a state does on each point: some points have an action of their own, and a search tree
decides on the others. -/
structure Decision where
  exact : List (Int × Action)
  tree : Array Decision.Inst
  deriving DecidableEq

def StateCode.maxExits : Nat := 3

/-- The code of a state. In a state with exits, characters that hold no exit byte are skipped. -/
structure StateCode where
  domain : Option Nat
  decision : Decision
  exits : List UInt8
  few : exits.length ≤ StateCode.maxExits
  deriving DecidableEq

structure Program where
  states : Array StateCode
  patterns : Nat
  deriving DecidableEq

namespace Decision

/-- Follows the tree from one instruction. Jumps go forward, so no more than all instructions are
visited. -/
def follow (tree : Array Inst) (p : Int) : (steps i : Nat) → Action
  | 0, _ => .fail
  | steps + 1, i =>
    match tree[i]? with
    | some (.leaf action) => action
    | some (.split pivot high) => follow tree p steps (if p < pivot then i + 1 else high)
    | none => .fail

def lookup (d : Decision) (p : Int) : Action :=
  match d.exact.find? fun entry => entry.1 == p with
  | some entry => entry.2
  | none => follow d.tree p d.tree.size 0

end Decision

namespace StateCode

def isTerminal (s : StateCode) : Bool := s.domain.isSome

/-- Whether no byte of the character is an exit of a state that has some. -/
def skips (s : StateCode) (c : Char) : Bool :=
  !s.exits.isEmpty && (String.utf8EncodeChar c).all (!s.exits.contains ·)

end StateCode

namespace Program

def start : Nat := 0

def size (p : Program) : Nat := p.states.size

def act (p : Program) (id : Nat) (point : Int) : Action :=
  match p.states[id]? with
  | some s => s.decision.lookup point
  | none => .fail

def isTerminal (p : Program) (id : Nat) : Bool := p.states[id]?.any (·.isTerminal)

def skips (p : Program) (id : Nat) (c : Char) : Bool := p.states[id]?.any (·.skips c)

def skipping (p : Program) : Nat := p.states.countP fun s => !s.exits.isEmpty

def checkedAct (p : Program) (id : Nat) (point : Int) : Except Fault Action :=
  (Fault.checkState p.size id).map fun id => p.act id point

end Program

end PatternAutomata
