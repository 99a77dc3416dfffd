import PatternAutomata.Collections
import PatternAutomata.Dfa
import PatternAutomata.Nfa.Build
import Std.Data.TreeMap

/-!
Subset construction. A state of the deterministic automaton stands for the states of the other that
some word can lead to, of which only the significant ones are kept: those that accept or consume.
States are numbered as they are found, and the one found last is worked out next.
-/

set_option autoImplicit false

namespace PatternAutomata

namespace Dfa

inductive BuildError
  | nfa (error : Nfa.BuildError)
  | tooManyStates (limit : Nat)
  deriving DecidableEq

def BuildError.message : BuildError → String
  | nfa _ => "error building NFA"
  | tooManyStates limit => "number of DFA states exceeds limit of " ++ toString limit

def limitInForce (setting : Option (Option Nat)) : Option Nat := setting.getD (some 10000)

end Dfa

namespace Subset

/-- A transition that consumes, taken out of the state it leaves. -/
structure Outgoing where
  points : PointSet
  target : Nat
  reluctant : Bool

/-- The construction under way: what each state found so far stands for, the number of each such
list, the transitions worked out, and the states that wait for theirs, last found first. -/
structure Progress where
  keys : Array (List Nat)
  index : Std.TreeMap (List Nat) Nat
  maps : Array (PointMap Dfa.Transition)
  waiting : List Nat

def Progress.initial : Progress := ⟨#[], ∅, #[], []⟩

def Progress.add (key : List Nat) : Progress → Progress
  | ⟨keys, index, maps, waiting⟩ =>
    let id := keys.size
    ⟨keys.push key, index.insert key id, maps.push .empty, id :: waiting⟩

/-- Whether reaching the state can matter: it accepts, or it consumes some point. -/
def isSignificant (s : Nfa.State) : Bool :=
  s.isAccepting || s.transitions.any fun t =>
    match t.points with
    | some points => !points.isEmpty
    | none => false

def significant (a : Nfa) (id : Nat) : Bool :=
  match a.states[id]? with
  | some s => isSignificant s
  | none => false

/-- Adds all that can be reached by silent transitions from `id`, itself included. -/
def closure (a : Nfa) (id : Nat) (s : SparseSet) : SparseSet := s.explore a.silentTargets id

/-- What a set of states amounts to: its significant states in ascending order. -/
def keyOf (a : Nfa) (s : SparseSet) : List Nat := Ascending.ofList (s.toList.filter (significant a))

def outgoing (a : Nfa) (key : List Nat) : List Outgoing :=
  key.flatMap fun id => (a.transitions id).filterMap fun t =>
    t.points.map fun points => ⟨points, t.target, t.reluctant⟩

/-- The ends of the spans of all sets. Between two neighbours no set changes. -/
def cuts (os : List Outgoing) : List Int :=
  os.foldr (fun o cs => Ascending.merge (o.points.spans.flatMap fun r => [r.start, r.stop]) cs) []

def reached (a : Nfa) (os : List Outgoing) (scratch : SparseSet) : SparseSet :=
  os.foldl (fun s o => closure a o.target s) scratch.clear

/-- What a round of the construction consists of, in a monad that says what else comes of it. -/
structure Steps (m : Type → Type) where
  outgoing : Array (List Nat) → (id : Nat) → m (List Outgoing)
  reached : List Outgoing → SparseSet → m SparseSet
  keyOf : SparseSet → m (List Nat)
  permit : (states : Nat) → m Unit
  span : (start stop : Int) → m Span
  settle : Array (PointMap Dfa.Transition) → (id : Nat) → PointMap Dfa.Transition →
    m (Array (PointMap Dfa.Transition))

namespace Steps

variable {m : Type → Type} [Monad m]

@[specialize]
def intern (steps : Steps m) (key : List Nat) (p : Progress) : m (Nat × Progress) :=
  match p.index[key]? with
  | some id => return (id, p)
  | none => do
    let id := p.keys.size
    steps.permit id
    return (id, p.add key)

/-- The transitions of a state from one cut to the next, in ascending order. All the transitions
that contribute have to be reluctant for one to be. -/
@[specialize]
def pieces (steps : Steps m) (os : List Outgoing) :
    List (Int × Int) → Progress → SparseSet →
      m (List (Span × Dfa.Transition) × Progress × SparseSet)
  | [], p, scratch => return ([], p, scratch)
  | (start, stop) :: rest, p, scratch =>
    match os.filter fun o => o.points.contains start with
    | [] => steps.pieces os rest p scratch
    | o :: more => do
      let scratch ← steps.reached (o :: more) scratch
      let key ← steps.keyOf scratch
      let (target, p) ← steps.intern key p
      let r ← steps.span start stop
      let (later, p, scratch) ← steps.pieces os rest p scratch
      return ((r, ⟨target, (o :: more).all (·.reluctant)⟩) :: later, p, scratch)

@[specialize]
def workOut (steps : Steps m) (id : Nat) : Progress → SparseSet → m (Progress × SparseSet)
  | ⟨keys, index, maps, waiting⟩, scratch => do
    let os ← steps.outgoing keys id
    let (found, ⟨keys, index, maps, waiting⟩, scratch) ←
      steps.pieces os (Ascending.windows (cuts os)) ⟨keys, index, maps, waiting⟩ scratch
    let maps ← steps.settle maps id (.ofPieces found)
    return (⟨keys, index, maps, waiting⟩, scratch)

/-- Works out the waiting states, the one found last first. -/
@[specialize]
def complete (steps : Steps m) (exhausted : m Progress) :
    (rounds : Nat) → Progress → SparseSet → m Progress
  | 0, p, _ => if p.waiting.isEmpty then return p else exhausted
  | _ + 1, ⟨keys, index, maps, []⟩, _ => return ⟨keys, index, maps, []⟩
  | rounds + 1, ⟨keys, index, maps, id :: waiting⟩, scratch => do
    let (p, scratch) ← steps.workOut id ⟨keys, index, maps, waiting⟩ scratch
    steps.complete exhausted rounds p scratch

end Steps

@[inline]
def steps (a : Nfa) (limit : Nat) : Steps (Except Dfa.BuildError) where
  outgoing keys id := .ok (outgoing a (keys.getD id []))
  reached os scratch := .ok (reached a os scratch)
  keyOf scratch := .ok (keyOf a scratch)
  permit states := if limit ≤ states then .error (.tooManyStates limit) else .ok ()
  span start stop := .ok ⟨start, stop⟩
  settle maps id m := .ok (maps.setIfInBounds id m)

def intern (a : Nfa) (limit : Nat) (key : List Nat) (p : Progress) :
    Except Dfa.BuildError (Nat × Progress) :=
  (steps a limit).intern key p

def pieces (a : Nfa) (limit : Nat) (os : List Outgoing) :
    List (Int × Int) → Progress → SparseSet →
      Except Dfa.BuildError (List (Span × Dfa.Transition) × Progress × SparseSet) :=
  (steps a limit).pieces os

/-- Each state waits once, so the limit on states bounds the rounds. -/
def complete (a : Nfa) (limit : Nat) :
    (rounds : Nat) → Progress → SparseSet → Except Dfa.BuildError Progress :=
  (steps a limit).complete (.error (.tooManyStates limit))

section

variable {a : Nfa} {limit : Nat} {os : List Outgoing} {rest : List (Int × Int)} {p : Progress}
  {scratch : SparseSet}

theorem pieces_cons {start stop : Int} :
    pieces a limit os ((start, stop) :: rest) p scratch =
      match os.filter fun o => o.points.contains start with
      | [] => pieces a limit os rest p scratch
      | o :: more => do
        let (target, p) ← intern a limit (keyOf a (reached a (o :: more) scratch)) p
        let (later, p, scratch) ← pieces a limit os rest p (reached a (o :: more) scratch)
        return ((⟨start, stop⟩, ⟨target, (o :: more).all (·.reluctant)⟩) :: later, p, scratch) := by
  rw [pieces, Steps.pieces]
  split <;> rfl

theorem complete_zero :
    complete a limit 0 p scratch =
      if p.waiting.isEmpty then .ok p else .error (.tooManyStates limit) := rfl

theorem complete_succ {rounds id : Nat} {keys : Array (List Nat)}
    {index : Std.TreeMap (List Nat) Nat} {maps : Array (PointMap Dfa.Transition)}
    {waiting : List Nat} :
    complete a limit (rounds + 1) ⟨keys, index, maps, id :: waiting⟩ scratch = (do
      let os := outgoing a (keys.getD id [])
      let (found, p, scratch) ←
        pieces a limit os (Ascending.windows (cuts os)) ⟨keys, index, maps, waiting⟩ scratch
      complete a limit rounds { p with maps := p.maps.setIfInBounds id (.ofPieces found) }
        scratch) := by
  change ((steps a limit).workOut id ⟨keys, index, maps, waiting⟩ scratch >>= _) = _
  rw [Steps.workOut]
  change ((pieces a limit _ _ _ scratch >>= _) >>= _) = _
  dsimp only
  cases pieces a limit (outgoing a (keys.getD id []))
    (Ascending.windows (cuts (outgoing a (keys.getD id [])))) ⟨keys, index, maps, waiting⟩
    scratch <;> rfl

end

def domainsOf (a : Nfa) (key : List Nat) : List Nat := Ascending.ofList (key.filterMap a.domain?)

def Progress.toDfa (a : Nfa) (p : Progress) : Dfa :=
  ⟨p.keys.mapIdx fun id key => ⟨p.maps.getD id .empty, domainsOf a key⟩, a.patterns⟩

end Subset

/-- The deterministic automaton of the reachable subsets, of which there may be at most `limit`. No
automaton has more states than there are identifiers. -/
def Nfa.determinize (a : Nfa) (limit : Option Nat) : Except Dfa.BuildError Dfa := do
  let limit := min (limit.getD Ident.capacity) Ident.capacity
  let scratch := Subset.closure a Nfa.start (.ofCapacity a.size)
  let (_, p) ← Subset.intern a limit (Subset.keyOf a scratch) .initial
  let p ← Subset.complete a limit limit p scratch
  return p.toDfa a

def Dfa.ofNodes (nodes : List Node) : Except Dfa.BuildError Dfa :=
  match Nfa.build .unset nodes with
  | .error e => .error (.nfa e)
  | .ok a => a.determinize (Dfa.limitInForce none)

end PatternAutomata
