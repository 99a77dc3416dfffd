import PatternAutomata.Dfa
import PatternAutomata.Program

/-!
Generating a program. The states are reordered first. How the pattern matched last changes is worked
out once for each transition; and a state that loops on all but a few ASCII characters gets these as
its exits. In the decision of a state, points with a run of their own go to the exact table, and
their runs are taken in by a neighbour, so that the tree tells apart only the longer runs. The tree
halves its segments.
-/

set_option autoImplicit false

/-! ### Decisions -/

namespace PatternAutomata.Decision

/-- From `start` on, up to the next segment, the tree decides for `action`. -/
structure Segment where
  start : Int
  action : Action
  deriving DecidableEq

def runAction (r : PointMap.Run Action) : Action := r.value.getD .fail

def isExact (r : PointMap.Run Action) : Bool := r.span.length == 1 && runAction r != .fail

/-- Puts a segment in front, taking in a following one of the same action. -/
def glue (s : Segment) : List Segment → List Segment
  | [] => [s]
  | t :: ts => if t.action = s.action then s :: ts else s :: t :: ts

/-- The first segment starts where the domain does, as it stands for exact points before it too. -/
def startAtBottom : List Segment → List Segment
  | [] => [⟨Point.endOfInput, .fail⟩]
  | s :: ss => ⟨Point.endOfInput, s.action⟩ :: ss

def segments (m : PointMap Action) : List Segment :=
  startAtBottom
    (((m.runs.filter (!isExact ·)).map fun r => ⟨r.span.start, runAction r⟩).foldr glue [])

/-- The tree of some segments, laid out from the index `base` on: the split, then its lower half,
then its upper half. Each half is shorter, so `depth` need not exceed the number of segments. -/
def code : (depth base : Nat) → List Segment → List Inst
  | _, _, [] => []
  | _, _, [s] => [.leaf s.action]
  | 0, _, s :: _ :: _ => [.leaf s.action]
  | depth + 1, base, s :: t :: rest =>
    let all := s :: t :: rest
    let mid := all.length / 2
    let upper := all.drop mid
    let low := code depth (base + 1) (all.take mid)
    let high := base + 1 + low.length
    .split ((upper.head?.map Segment.start).getD 0) high :: low ++ code depth high upper

def ofMap (m : PointMap Action) : Decision :=
  let ss := segments m
  ⟨(m.runs.filter isExact).map fun r => (r.span.start, runAction r),
    (code ss.length 0 ss).toArray⟩

end PatternAutomata.Decision

/-! ### States -/

namespace PatternAutomata

namespace Dfa

/-- Entering a terminal state sets the pattern, unless the state loops on itself and is not the
start state; leaving one for a state that is not terminal clears it. -/
def domainUpdate (d : Dfa) (id : Nat) (s : State) (t : Transition) : DomainUpdate :=
  match d.states[t.target]?.bind State.domain? with
  | some pattern => if t.target = id ∧ id ≠ start then .keep else .set pattern
  | none => if s.isTerminal then .clear else .keep

def action (d : Dfa) (id : Nat) (s : State) (t : Transition) : Action :=
  .goto t.target (d.domainUpdate id s t) t.reluctant

/-- Whether nothing is observed when the state is left and entered again over the run. -/
def isLoop (id : Nat) (r : PointMap.Run Transition) : Bool :=
  match r.value with
  | some t => t.target == id && !t.reluctant
  | none => false

def asciiOf? (r : Span) : Option UInt8 :=
  let c := max r.start 0
  if r.stop - c = 1 ∧ c ≤ 0x7F then some (UInt8.ofNat c.toNat) else none

/-- The characters on which a state does not loop, if they are few and all ASCII. The start state
has none, as its loop sets the pattern; and as no text holds the end of input, that does not
count. -/
def exits (id : Nat) (s : State) : List UInt8 :=
  let leaving := s.transitions.runs.filter fun r => !isLoop id r && 0 < r.span.stop
  match leaving.mapM fun r => asciiOf? r.span with
  | some exits => if id ≠ start ∧ exits.length ≤ StateCode.maxExits then exits else []
  | none => []

theorem length_exits_le (id : Nat) (s : State) : (exits id s).length ≤ StateCode.maxExits := by
  unfold exits
  simp only
  split
  case h_1 es hes =>
    split
    case isTrue h => exact h.2
    case isFalse => exact Nat.zero_le _
  case h_2 => exact Nat.zero_le _

theorem length_ite_exits_le (accelerate : Bool) (id : Nat) (s : State) :
    (if accelerate then exits id s else []).length ≤ StateCode.maxExits := by
  split
  · exact length_exits_le id s
  · exact Nat.zero_le _

def stateCode (d : Dfa) (accelerate : Bool) (id : Nat) (s : State) : StateCode :=
  ⟨s.domain?, .ofMap (s.transitions.filterMap fun t => some (d.action id s t)),
    if accelerate then exits id s else [], length_ite_exits_le accelerate id s⟩

end Dfa

def Program.ofDfa (d : Dfa) (accelerate : Bool) : Program :=
  let d := d.reorder
  ⟨d.states.mapIdx (d.stateCode accelerate), d.patterns⟩

end PatternAutomata
