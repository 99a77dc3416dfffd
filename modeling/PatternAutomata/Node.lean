import PatternAutomata.PointSet

/-!
Patterns as trees. Equality of trees is decided structurally; `same_iff` says that it is equality.
-/

set_option autoImplicit false

namespace PatternAutomata

inductive GroupId
  /-- The place of the opening parenthesis among all capturing groups, from 1. -/
  | index (n : Nat)
  | name (s : String)
  deriving DecidableEq

inductive Node
  | empty
  /-- Consumes the end of input. -/
  | endOfInput
  | text (chars : List Char)
  /-- Consumes one point of the set. -/
  | set (points : PointSet)
  | concat (nodes : List Node)
  | oneOf (first second : Node)
  /-- From `min` to `max` times the node, without an upper end if there is no `max`. A reluctant
  repetition prefers to stop as early as it may. -/
  | repeated (node : Node) (min : Nat) (max : Option Nat) (reluctant : Bool)
  | group (id : GroupId) (node : Node)

namespace Node

def ofText : List Char → Node
  | [] => empty
  | c :: cs => text (c :: cs)

def anyChar : Node := set PointSet.codePoints

/-- A concatenation, unless there are fewer than two parts. -/
def ofParts : List Node → Node
  | [] => empty
  | [n] => n
  | n :: m :: ns => concat (n :: m :: ns)

/-- Alternatives, nested to the left. Without any, nothing matches. -/
def ofAlternatives : List Node → Node
  | [] => set PointSet.empty
  | n :: ns => ns.foldl oneOf n

def zeroOrMore (n : Node) : Node := repeated n 0 none false

def oneOrMore (n : Node) : Node := repeated n 1 none false

def optional (n : Node) : Node := repeated n 0 (some 1) false

mutual

def same : Node → Node → Bool
  | empty, empty => true
  | endOfInput, endOfInput => true
  | text a, text b => a == b
  | set a, set b => a == b
  | concat as, concat bs => sameAll as bs
  | oneOf a b, oneOf c d => same a c && same b d
  | repeated a min max reluctant, repeated b min' max' reluctant' =>
    same a b && min == min' && max == max' && reluctant == reluctant'
  | group i a, group j b => i == j && same a b
  | _, _ => false

def sameAll : List Node → List Node → Bool
  | [], [] => true
  | a :: as, b :: bs => same a b && sameAll as bs
  | _, _ => false

end

mutual

theorem same_iff : (a b : Node) → (same a b = true ↔ a = b)
  | empty, b => by cases b <;> simp [same]
  | endOfInput, b => by cases b <;> simp [same]
  | text _, b => by cases b <;> simp [same]
  | set _, b => by cases b <;> simp [same]
  | concat as, b => by
    cases b with
    | concat bs => simp [same, sameAll_iff as bs]
    | _ => simp [same]
  | oneOf a₁ a₂, b => by
    cases b with
    | oneOf b₁ b₂ => simp [same, same_iff a₁ b₁, same_iff a₂ b₂]
    | _ => simp [same]
  | repeated a _ _ _, b => by
    cases b with
    | repeated b _ _ _ => simp [same, same_iff a b, and_assoc]
    | _ => simp [same]
  | group _ a, b => by
    cases b with
    | group _ b => simp [same, same_iff a b]
    | _ => simp [same]

theorem sameAll_iff : (as bs : List Node) → (sameAll as bs = true ↔ as = bs)
  | [], bs => by cases bs <;> simp [sameAll]
  | a :: as, bs => by
    cases bs with
    | nil => simp [sameAll]
    | cons b bs => simp [sameAll, same_iff a b, sameAll_iff as bs]

end

instance : DecidableEq Node := fun a b => decidable_of_iff (same a b = true) (same_iff a b)

end Node

end PatternAutomata
