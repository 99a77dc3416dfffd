import PatternAutomata.Nfa
import PatternAutomata.Text

/-! The dump of an automaton: a line per state, with its transitions in order. -/

set_option autoImplicit false

namespace PatternAutomata

def GroupId.text : GroupId → String
  | index n => "Index(" ++ toString n ++ ")"
  | name s => "Name(" ++ Quoted.text s ++ ")"

namespace Nfa

def Marker.text : Marker → String
  | start id => "start(" ++ id.text ++ ")"
  | stop id => "end(" ++ id.text ++ ")"

def Transition.text (t : Transition) : String :=
  (match t.points with
    | some s => s.text
    | none => "eps") ++
  (match t.marker with
    | some m => " " ++ m.text
    | none => "") ++
  (if t.reluctant then "?" else "") ++ " => " ++ toString t.target

def stateLine (id : Nat) (s : State) : String :=
  (if id = start then ">" else " ") ++ Digits.padded 6 id ++
  (match s.domain with
    | some pattern => "[" ++ toString pattern ++ "]"
    | none => "") ++
  ": " ++ ", ".intercalate (s.transitions.map Transition.text)

def dump (a : Nfa) : List String :=
  "nfa::NFA(" :: (a.states.toList.zipIdx.map fun (s, id) => stateLine id s) ++ [")"]

end Nfa

end PatternAutomata
