import PatternAutomata.Nfa.Fragment

/-!
Building an automaton from patterns, within limits. Space is accounted for before any state is
made: `reserve` goes through a pattern in the order in which its states would be taken, and meets
the first obstacle where that order does, without unrolling a repetition.
-/

set_option autoImplicit false

namespace PatternAutomata.Nfa

inductive BuildError
  | noPatterns
  | tooManyPatterns (given limit : Nat)
  | tooManyStates (given limit : Nat)
  | invalidRepetition (min max : Nat)
  deriving DecidableEq

def BuildError.message : BuildError → String
  | noPatterns => "at least one pattern is required"
  | tooManyPatterns given limit =>
    "attempted to compile " ++ toString given ++ " patterns, which exceeds the limit of " ++
      toString limit
  | tooManyStates given limit =>
    "attempted to compile " ++ toString given ++ " NFA states, which exceeds the limit of " ++
      toString limit
  | invalidRepetition min max =>
    "invalid repetition \x7b" ++ toString min ++ "," ++ toString max ++
      "\x7d: maximum is less than minimum"

structure Limits where
  patterns : Option Nat
  states : Option Nat
  deriving DecidableEq

namespace Limits

def unset : Limits := ⟨none, none⟩

def overwrite (old new : Limits) : Limits :=
  ⟨new.patterns.or old.patterns, new.states.or old.states⟩

def patternLimit (l : Limits) : Nat := min (l.patterns.getD Ident.capacity) Ident.capacity

def defaultStateLimit : Nat := 100000

def stateLimit (l : Limits) : Nat := min (l.states.getD defaultStateLimit) Ident.capacity

end Limits

def take (limit used more : Nat) : Except BuildError Nat :=
  if used + more ≤ limit then .ok (used + more) else .error (.tooManyStates (limit + 1) limit)

/-- Takes the states of several copies. Only the first can meet anything but the limit. -/
def takeCopies (limit : Nat) (copy : Nat → Except BuildError Nat) (count used : Nat) :
    Except BuildError Nat :=
  if count = 0 then .ok used
  else do
    let first ← copy used
    take limit first ((count - 1) * (first - used))

def BuildError.ofCounts (min : Nat) : (max : Option Nat) → Except BuildError Unit
  | none => .ok ()
  | some max => if max < min then .error (.invalidRepetition min max) else .ok ()

mutual

/-- Takes the states of a pattern and gives the number then in use. -/
def reserve (limit : Nat) : Node → (used : Nat) → Except BuildError Nat
  | .empty, used => take limit used 1
  | .endOfInput, used => take limit used 2
  | .text cs, used => take limit used (cs.length + 1)
  | .set _, used => take limit used 2
  | .concat [], used => take limit used 1
  | .concat (n :: ns), used => reserveAll limit (n :: ns) used
  | .oneOf a b, used => do
    let used ← take limit used 1
    let used ← reserve limit a used
    let used ← reserve limit b used
    take limit used 1
  | .repeated n min max _, used => do
    BuildError.ofCounts min max
    let used ← if min = 0 then take limit used 1 else takeCopies limit (reserve limit n) min used
    let used ← take limit used 1
    takeCopies limit (reserve limit n) (optionalCopies min max) used
  | .group _ n, used => do
    let used ← take limit used 1
    let used ← reserve limit n used
    take limit used 1

def reserveAll (limit : Nat) : List Node → (used : Nat) → Except BuildError Nat
  | [], used => .ok used
  | n :: ns, used => do
    let used ← reserve limit n used
    reserveAll limit ns used

end

def reservePatterns (limit : Nat) : List Node → (used : Nat) → Except BuildError Nat
  | [], used => .ok used
  | n :: ns, used => do
    let used ← reserve limit n used
    let used ← take limit used 1
    reservePatterns limit ns used

/-- An accepting state loops on the end of input, and so accepts still after it. -/
def acceptState (pattern id : Nat) : State := ⟨some pattern, [.consuming .endOfInput false id]⟩

def entryPoints : List Node → (base : Nat) → List Nat
  | [], _ => []
  | n :: ns, base => base :: entryPoints ns (base + stateCount n + 1)

/-- The fragment of each pattern, followed by its accepting state. -/
def patternStates : List Node → (pattern base : Nat) → List State
  | [], _, _ => []
  | n :: ns, pattern, base =>
    let accept := base + stateCount n
    fragment n false base [.silent accept] ++
      acceptState pattern accept :: patternStates ns (pattern + 1) (accept + 1)

def ofNodes (nodes : List Node) : Nfa :=
  let first : State := ⟨none, (entryPoints nodes 1).map .silent⟩
  ⟨(first :: patternStates nodes 0 1).toArray, nodes.length⟩

def build (limits : Limits) (nodes : List Node) : Except BuildError Nfa :=
  if nodes.isEmpty then .error .noPatterns
  else if limits.patternLimit < nodes.length then
    .error (.tooManyPatterns nodes.length limits.patternLimit)
  else do
    let used ← take limits.stateLimit 0 1
    let _ ← reservePatterns limits.stateLimit nodes used
    return ofNodes nodes

end PatternAutomata.Nfa
