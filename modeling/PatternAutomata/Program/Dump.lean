import PatternAutomata.Program
import PatternAutomata.Text

/-! The dump of a program: for each state a heading, its exact points and its tree. -/

set_option autoImplicit false

namespace PatternAutomata

def DomainUpdate.text : DomainUpdate → String
  | keep => "Keep"
  | set pattern => "Set(" ++ Ident.text .pattern pattern ++ ")"
  | clear => "Clear"

def Action.text : Action → String
  | fail => "Fail"
  | goto next update reluctant =>
    "Goto \x7b next: " ++ Ident.text .state next ++ ", domain: " ++ update.text ++
      ", reluctant: " ++ toString reluctant ++ " \x7d"

def Decision.Inst.text : Decision.Inst → String
  | split pivot high => "< " ++ Point.text pivot ++ " else " ++ Digits.padded 4 high
  | leaf action => action.text

def Decision.lines (d : Decision) : List String :=
  (d.exact.map fun (p, action) => "  == " ++ Point.text p ++ " => " ++ action.text) ++
    d.tree.toList.zipIdx.map fun (inst, i) => "  " ++ Digits.padded 4 i ++ ": " ++ inst.text

namespace Program

def heading (id : Nat) (s : StateCode) : String :=
  (if id = start then ">" else if s.isTerminal then "*" else " ") ++ Digits.padded 6 id ++
  (match s.domain with
    | some pattern => "[" ++ toString pattern ++ "]"
    | none => "") ++
  (if s.exits.isEmpty then ""
    else " Accel(\x7b" ++
      ", ".intercalate (s.exits.map fun b => Point.text (b.toNat : Int)) ++ "\x7d)") ++
  ":"

def dump (p : Program) : List String :=
  "program::Program(" ::
    (p.states.toList.zipIdx.flatMap fun (s, id) => heading id s :: s.decision.lines) ++ [")"]

end Program

end PatternAutomata
