import PatternAutomata.Matcher

/-!
Sessions: several matchers over one program, numbered in the order in which they are made. A matcher
is a value, so a fork shares nothing with the matcher it is made from, and a call that breaks the
rules changes none of them.
-/

set_option autoImplicit false

namespace PatternAutomata

structure Session where
  matchers : List Matcher
  deriving DecidableEq

namespace Session

inductive Call
  | feed (m : Nat) (text : String) (start stop : Nat) (stopReluctantly : Bool)
  | finish (m : Nat)
  | restart (m : Nat)
  /-- Makes a copy of a matcher. -/
  | fork (m : Nat)
  /-- Makes a new matcher. -/
  | begin

def initial : Session := ⟨[.new]⟩

def get? (s : Session) (m : Nat) : Option Matcher := s.matchers[m]?

def find (s : Session) (m : Nat) : Except Fault Matcher :=
  match s.get? m with
  | some x => .ok x
  | none => .error .outOfRange

def replace (s : Session) (m : Nat) (x : Matcher) : Session := ⟨s.matchers.set m x⟩

def append (s : Session) (x : Matcher) : Session := ⟨s.matchers ++ [x]⟩

/-- The session after a call, and the matcher that the call changed or made. -/
def call (p : Program) (s : Session) : Call → Except Fault (Session × Matcher)
  | .feed m text start stop stopReluctantly => do
    let x ← (← s.find m).feed p text start stop stopReluctantly
    return (s.replace m x, x)
  | .finish m => do
    let x := (← s.find m).finish p
    return (s.replace m x, x)
  | .restart m => do
    let x := (← s.find m).restart
    return (s.replace m x, x)
  | .fork m => do
    let x ← s.find m
    return (s.append x, x)
  | .begin => return (s.append .new, .new)

/-- The session after some calls, of which those that fail are passed over. -/
def run (p : Program) (s : Session) (calls : List Call) : Session :=
  calls.foldl (fun s c => match s.call p c with
    | .ok (s, _) => s
    | .error _ => s) s

theorem run_append (p : Program) (s : Session) (xs ys : List Call) :
    s.run p (xs ++ ys) = (s.run p xs).run p ys := List.foldl_append

end Session

end PatternAutomata
