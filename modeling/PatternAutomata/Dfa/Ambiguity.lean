import PatternAutomata.Dfa
import PatternAutomata.Text

/-!
Inputs that more than one pattern accepts. A search in breadth finds, for each state in which
several patterns accept, a shortest input that leads there. A step of an input is a character or
the end of input; a surrogate is never a step.
-/

set_option autoImplicit false

namespace PatternAutomata

namespace Dfa

inductive Step
  | char (c : Char)
  | endOfInput
  deriving DecidableEq

def Step.point : Step → Int
  | char c => Point.ofChar c
  | endOfInput => Point.endOfInput

def Step.char? : Step → Option Char
  | char c => some c
  | endOfInput => none

/-- A state in which several patterns accept, and the steps of a shortest input that leads there. -/
structure Ambiguity where
  state : Nat
  domains : List Nat
  steps : List Step
  deriving DecidableEq

namespace Ambiguity

def sample (x : Ambiguity) : String := String.ofList (x.steps.filterMap Step.char?)

def requiresEnd (x : Ambiguity) : Bool := x.steps.contains .endOfInput

def message (x : Ambiguity) : String :=
  "patterns " ++ ", ".intercalate (x.domains.map toString) ++ " all match " ++
    Quoted.text x.sample ++ if x.requiresEnd then " at end of input" else ""

def preferred : List Span := [.ofChars 'a' 'z', .ofChars '0' '9', .ofChars 'A' 'Z']

def firstChar? (r : Span) : Option Char :=
  let start := max r.start 0
  let start := if Span.surrogates.contains start then Span.surrogates.stop else start
  if start < r.stop then Point.char? start else none

/-- A character of the span, one that reads well if there is one. -/
def representative? (r : Span) : Option Char :=
  match (preferred.map r.overlap).find? (!·.isEmpty) with
  | some s => Point.char? s.start
  | none => firstChar? r

/-- The step that stands for a span, unless it holds nothing but surrogates. -/
def step? (r : Span) : Option Step :=
  match representative? r with
  | some c => some (.char c)
  | none => if r.contains Point.endOfInput then some .endOfInput else none

/-- The steps by which each state was found, in reverse, and the states found last, in reverse. -/
structure Search where
  paths : Array (Option (List Step))
  found : List Nat

def Search.isKnown (s : Search) (id : Nat) : Bool := (s.paths.getD id none).isSome

def follow (path : List Step) (s : Search) (transition : Span × Transition) : Search :=
  if s.isKnown transition.2.target then s
  else match step? transition.1 with
    | none => s
    | some step =>
      ⟨s.paths.setIfInBounds transition.2.target (some (step :: path)),
        transition.2.target :: s.found⟩

def visit (d : Dfa) (s : Search) (id : Nat) : Search :=
  match d.states[id]?, s.paths.getD id none with
  | some state, some path => state.transitions.valued.foldl (follow path) s
  | _, _ => s

/-- Searches on from the states found last, one level after another. Each level but the last finds
a state, so there are no more levels than states. -/
def searchLevels (d : Dfa) : (levels : Nat) → Search → Search
  | 0, s => s
  | levels + 1, s =>
    match s.found with
    | [] => s
    | found => searchLevels d levels (found.reverse.foldl (visit d) { s with found := [] })

def search (d : Dfa) : Search :=
  searchLevels d d.size
    ⟨(Array.replicate d.size none).setIfInBounds start (some []), [start]⟩

def ofState? (d : Dfa) (s : Search) (id : Nat) : Option Ambiguity :=
  match d.states[id]?, s.paths.getD id none with
  | some state, some path =>
    if state.isAmbiguous then some ⟨id, state.domains, path.reverse⟩ else none
  | _, _ => none

end Ambiguity

def ambiguities (d : Dfa) : List Ambiguity :=
  let s := Ambiguity.search d
  (List.range d.size).filterMap (Ambiguity.ofState? d s)

end Dfa

end PatternAutomata
