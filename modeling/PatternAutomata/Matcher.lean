import PatternAutomata.Program
import PatternAutomata.Text

/-!
Matchers. A matcher runs a program over text that arrives in pieces. It knows its state, as long as
what it was given can still match; the pattern matched last, which outlives a failure; and the
offset of the first character that it did not consume.
-/

set_option autoImplicit false

namespace PatternAutomata

structure Matcher where
  state : Option Nat
  domain : Option Nat
  index : Nat
  deriving DecidableEq

namespace Matcher

def new : Matcher := ⟨some Program.start, none, 0⟩

def isValid (m : Matcher) : Bool := m.state.isSome

/-- Consumes characters from the given state on. With `stopReluctantly`, it stops in an accepting
state before a character that would only continue reluctant repetitions. -/
def consume (p : Program) (stopReluctantly : Bool) :
    (id : Nat) → (domain : Option Nat) → (offset : Nat) → List Char → Matcher
  | id, domain, offset, [] => ⟨some id, domain, offset⟩
  | id, domain, offset, c :: cs =>
    if p.skips id c then consume p stopReluctantly id domain (offset + c.utf8Size) cs
    else match p.act id (Point.ofChar c) with
      | .fail => ⟨none, domain, offset⟩
      | .goto next update reluctant =>
        if reluctant && stopReluctantly && p.isTerminal id then ⟨some id, domain, offset⟩
        else consume p stopReluctantly next (update.apply domain) (offset + c.utf8Size) cs

def feedChars (p : Program) (m : Matcher) (offset : Nat) (cs : List Char)
    (stopReluctantly : Bool) : Matcher :=
  match m.state with
  | none => { m with index := offset }
  | some id => consume p stopReluctantly id m.domain offset cs

/-- The characters between two offsets, both of which have to be boundaries of characters. -/
def slice (cs : List Char) (start stop : Nat) : Except Fault (List Char) :=
  match Offset.cut? stop cs with
  | none => .error .outOfRange
  | some (before, _) =>
    match Offset.cut? start before with
    | none => .error (.invalidStart start)
    | some (_, piece) => .ok piece

def feed (p : Program) (m : Matcher) (text : String) (start stop : Nat) (stopReluctantly : Bool) :
    Except Fault Matcher :=
  (slice text.toList start stop).map fun piece => m.feedChars p start piece stopReluctantly

def finish (p : Program) (m : Matcher) : Matcher :=
  match m.state with
  | none => m
  | some id =>
    match p.act id Point.endOfInput with
    | .fail => { m with state := none }
    | .goto next update _ => { m with state := some next, domain := update.apply m.domain }

/-- Goes back to the start and forgets the pattern, but not the offset. -/
def restart (m : Matcher) : Matcher := { m with state := some Program.start, domain := none }

end Matcher

namespace Program

def which (p : Program) (text : String) : Option Nat :=
  let m := (Matcher.new.feedChars p 0 text.toList false).finish p
  if m.isValid then m.domain else none

def isMatch (p : Program) (text : String) : Bool := (p.which text).isSome

end Program

end PatternAutomata
