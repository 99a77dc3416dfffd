import PatternAutomata.Dfa

/-! The dump of a deterministic automaton: a line per state, with its transitions in order. -/

set_option autoImplicit false

namespace PatternAutomata.Dfa

def stateMark (id : Nat) (s : State) : String :=
  if id = start then ">" else if s.isAmbiguous then "!" else if s.isTerminal then "*" else " "

def transitionText (r : Span) (t : Transition) : String :=
  " " ++ r.text ++ " =>" ++ (if t.reluctant then "?" else "") ++ " " ++ toString t.target ++ ","

def stateLine (id : Nat) (s : State) : String :=
  stateMark id s ++ Digits.padded 6 id ++
  (if s.isTerminal then "[" ++ ", ".intercalate (s.domains.map toString) ++ "]" else "") ++ ":" ++
  String.join (s.transitions.valued.map fun (r, t) => transitionText r t)

def dump (d : Dfa) : List String :=
  "dfa::DFA(" :: (d.states.toList.zipIdx.map fun (s, id) => stateLine id s) ++ [")"]

end PatternAutomata.Dfa
