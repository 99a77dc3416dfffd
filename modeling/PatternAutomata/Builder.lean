import PatternAutomata.Dfa.Ambiguity
import PatternAutomata.Dfa.Subset
import PatternAutomata.Node.Parser
import PatternAutomata.Program.Generate
import PatternAutomata.Regex

/-!
Builders: from written patterns, trees, regular expressions or an automaton to a program, under
options that are set one by one.
-/

set_option autoImplicit false

namespace PatternAutomata

inductive BuildError
  | malformed (error : ParseError)
  | nfa (error : Nfa.BuildError)
  | dfa (error : Dfa.BuildError)
  | ambiguous (ambiguity : Dfa.Ambiguity)
  | unsupported (feature : Regex.Unsupported)
  deriving DecidableEq

namespace BuildError

def message : BuildError → String
  | malformed e => "error parsing pattern: " ++ e.message
  | nfa _ => "error building NFA"
  | dfa _ => "error building DFA"
  | ambiguous x => "ambiguous patterns: " ++ x.message
  | unsupported feature => feature.message

def position? : BuildError → Option Nat
  | malformed e => some e.position
  | _ => none

def causes : BuildError → List String
  | malformed e => [e.message]
  | nfa e => [e.message]
  | dfa (.nfa e) => [Dfa.BuildError.message (.nfa e), e.message]
  | dfa (.tooManyStates limit) => [Dfa.BuildError.message (.tooManyStates limit)]
  | ambiguous _ => []
  | unsupported _ => []

end BuildError

/-- Options of a builder; one that is not set has a default. -/
structure Options where
  /-- Set to `none`, there is no limit on the states. -/
  stateLimit : Option (Option Nat)
  rejectAmbiguous : Option Bool
  accelerate : Option Bool
  deriving DecidableEq

namespace Options

def unset : Options := ⟨none, none, none⟩

def overwrite (old new : Options) : Options :=
  ⟨new.stateLimit.or old.stateLimit, new.rejectAmbiguous.or old.rejectAmbiguous,
    new.accelerate.or old.accelerate⟩

def stateLimitInForce (o : Options) : Option Nat := Dfa.limitInForce o.stateLimit

def rejectsAmbiguous (o : Options) : Bool := o.rejectAmbiguous.getD false

def accelerates (o : Options) : Bool := o.accelerate.getD true

end Options

structure Builder where
  options : Options
  limits : Nfa.Limits
  nestLimit : Nat
  deriving DecidableEq

namespace Builder

def new : Builder := ⟨.unset, .unset, Parser.defaultNestLimit⟩

inductive Setting
  | options (o : Options)
  | limits (l : Nfa.Limits)
  | nestLimit (limit : Nat)

def configure (b : Builder) : Setting → Builder
  | .options o => { b with options := b.options.overwrite o }
  | .limits l => { b with limits := b.limits.overwrite l }
  | .nestLimit limit => { b with nestLimit := limit }

def ofDfa (b : Builder) (d : Dfa) : Except BuildError Program :=
  if b.options.rejectsAmbiguous then
    match d.ambiguities with
    | x :: _ => .error (.ambiguous x)
    | [] => .ok (.ofDfa d b.options.accelerates)
  else .ok (.ofDfa d b.options.accelerates)

def ofNodes (b : Builder) (nodes : List Node) : Except BuildError Program := do
  let a ← (Nfa.build b.limits nodes).mapError .nfa
  let d ← (a.determinize b.options.stateLimitInForce).mapError .dfa
  b.ofDfa d

/-- All patterns are read first, and the first that is malformed is reported. -/
def ofPatterns (b : Builder) (patterns : List String) : Except BuildError Program := do
  let nodes ← (patterns.mapM (Parser.parse b.nestLimit)).mapError .malformed
  b.ofNodes nodes

def ofRegexes (b : Builder) (regexes : List Regex) : Except BuildError Program := do
  let nodes ← (Regex.toNodes regexes).mapError .unsupported
  b.ofNodes nodes

end Builder

end PatternAutomata
