import PatternAutomata.Nfa
import PatternAutomata.Regex
import Mathlib.Computability.Language

/-!
What a pattern means. Its words are those over points that it matches; its traces say in addition
which points are consumed reluctantly and where groups begin and end, as paths through an automaton
do. Of a regular expression, the start of the text asks for nothing, and its end is the end of
input.
-/

set_option autoImplicit false

/-! ### Paths -/

namespace PatternAutomata.Nfa

inductive Token
  | point (p : Int) (reluctant : Bool)
  | marker (m : Marker)
  deriving DecidableEq

def Token.point? : Token → Option Int
  | point p _ => some p
  | marker _ => none

def Token.tagged? : Token → Option (Int × Bool)
  | point p reluctant => some (p, reluctant)
  | marker _ => none

def pointsOf (ts : List Token) : List Int := ts.filterMap Token.point?

inductive Transition.Emits (t : Transition) : List Token → Prop
  | silent (h : t.points = none) : Emits t (t.marker.toList.map .marker)
  | consume {s : PointSet} (h : t.points = some s) {p : Int} (hp : s.contains p = true) :
    Emits t [.point p t.reluctant]

/-- `Path a allowed i ts j` says that a path from `i` to `j` over allowed transitions meets `ts`. -/
inductive Path (a : Nfa) (allowed : Nat → Transition → Prop) : Nat → List Token → Nat → Prop
  | refl (i : Nat) : Path a allowed i [] i
  | step {i j : Nat} {t : Transition} {xs ys : List Token} (ht : t ∈ a.transitions i)
    (ha : allowed i t) (hx : t.Emits xs) (hp : Path a allowed t.target ys j) :
    Path a allowed i (xs ++ ys) j

def AnyPath (a : Nfa) : Nat → List Token → Nat → Prop := Path a fun _ _ => True

def ReachedOn (a : Nfa) (w : List Int) (j : Nat) : Prop :=
  ∃ ts, AnyPath a start ts j ∧ pointsOf ts = w

theorem pointsOf_append (xs ys : List Token) : pointsOf (xs ++ ys) = pointsOf xs ++ pointsOf ys :=
  List.filterMap_append

theorem Path.append {a : Nfa} {allowed : Nat → Transition → Prop} {i j k : Nat}
    {xs ys : List Token} (hx : Path a allowed i xs j) (hy : Path a allowed j ys k) :
    Path a allowed i (xs ++ ys) k := by
  induction hx with
  | refl _ => exact hy
  | step ht ha he _ ih =>
    rw [List.append_assoc]
    exact .step ht ha he (ih hy)

end PatternAutomata.Nfa

/-! ### Patterns -/

namespace PatternAutomata.Node

open Nfa (Token)

def counted {α : Type} (l : Language α) (min : ℕ) (max : Option ℕ) : Language α :=
  {w | ∃ k, min ≤ k ∧ (∀ m, max = some m → k ≤ m) ∧ w ∈ l ^ k}

mutual

def words : Node → Language ℤ
  | empty => 1
  | endOfInput => {[Point.endOfInput]}
  | text cs => {cs.map Point.ofChar}
  | set s => {w | ∃ p, s.contains p = true ∧ w = [p]}
  | concat ns => wordsAll ns
  | oneOf a b => words a + words b
  | repeated n min max _ => counted (words n) min max
  | group _ n => words n

def wordsAll : List Node → Language ℤ
  | [] => 1
  | n :: ns => words n * wordsAll ns

end

/-- Copies of a repetition: the first `min` are mandatory, and those after them optional. -/
def unrolled {α : Type} (mandatory optional : Language α) (min : ℕ) (max : Option ℕ) :
    Language α :=
  {w | ∃ k, (∀ m, max = some m → min + k ≤ m) ∧ w ∈ mandatory ^ min * optional ^ k}

mutual

/-- The traces of a pattern in a place that is reluctant or not. The optional copies of a reluctant
repetition are reluctant in any place. -/
def traces : Node → Bool → Language Token
  | empty, _ => 1
  | endOfInput, r => {[.point Point.endOfInput r]}
  | text cs, r => {cs.map fun c => .point (Point.ofChar c) r}
  | set s, r => {w | ∃ p, s.contains p = true ∧ w = [.point p r]}
  | concat ns, r => tracesAll ns r
  | oneOf a b, r => traces a r + traces b r
  | repeated n min max lazily, r => unrolled (traces n r) (traces n (r || lazily)) min max
  | group id n, r => {[.marker (.start id)]} * traces n r * {[.marker (.stop id)]}

def tracesAll : List Node → Bool → Language Token
  | [], _ => 1
  | n :: ns, r => traces n r * tracesAll ns r

end

def tagged (n : Node) (reluctant : Bool) : Language (ℤ × Bool) :=
  {w | ∃ ts ∈ traces n reluctant, ts.filterMap Token.tagged? = w}

def taggedWords (n : Node) : Language (ℤ × Bool) := tagged n false

/-- A point that a matcher can be given: a character or the end of input. -/
def Feedable (p : ℤ) : Prop := p = Point.endOfInput ∨ (Point.char? p).isSome = true

/-- The words of a pattern followed by any number of ends of input. -/
def closedWords (n : Node) : Language ℤ :=
  {w | ∃ u ∈ words n, ∃ k, w = u ++ List.replicate k Point.endOfInput}

def accepting (nodes : List Node) (w : List ℤ) : Set ℕ :=
  {i | ∃ n, nodes[i]? = some n ∧ w ∈ closedWords n}

end PatternAutomata.Node

/-! ### Regular expressions -/

namespace PatternAutomata.Regex

def between (a b : ℕ) : Language ℤ :=
  {w | ∃ c : Char, min a b ≤ c.toNat ∧ c.toNat ≤ max a b ∧ w = [Point.ofChar c]}

def Quantifier.Allows : Quantifier → ℕ → Prop
  | zeroOrOne, k => k ≤ 1
  | zeroOrMore, _ => True
  | oneOrMore, k => 1 ≤ k
  | exactly n, k => k = n
  | atLeast n, k => n ≤ k
  | bounded m n, k => m ≤ k ∧ k ≤ n

mutual

def words : Regex → Language ℤ
  | empty => 1
  | char c => {[Point.ofChar c]}
  | byte b => {[(b.toNat : ℤ)]}
  | charClass ranges => {w | ∃ r ∈ ranges, w ∈ between r.1.toNat r.2.toNat}
  | byteClass ranges => {w | ∃ r ∈ ranges, w ∈ between r.1.toNat r.2.toNat}
  | startText => 1
  | endText => {[Point.endOfInput]}
  | startLine => 0
  | endLine => 0
  | wordBoundary _ => 0
  | repeated quantifier _ body => {w | ∃ k, quantifier.Allows k ∧ w ∈ words body ^ k}
  | group _ body => words body
  | concat parts => wordsOfAll parts
  | alternation parts => wordsOfAny parts

def wordsOfAll : List Regex → Language ℤ
  | [] => 1
  | e :: es => words e * wordsOfAll es

def wordsOfAny : List Regex → Language ℤ
  | [] => 0
  | e :: es => words e + wordsOfAny es

end

end PatternAutomata.Regex
