import PatternAutomata.Node

/-!
The written form of a pattern. A character that the notation gives a meaning is escaped, and so is
any that is a control or not ASCII. Groups are added only where the tree asks for them.
-/

set_option autoImplicit false

namespace PatternAutomata.Node

def special : List Char :=
  ['\\', '.', '+', '*', '?', '(', ')', '|', '[', ']', '\x7b', '\x7d', '^', '$']

def classSpecial : List Char := ['\\', ']', '^', '-', '[']

def codeEscape (code : Nat) : List Char :=
  ['\\', 'u', '\x7b'] ++ Digits.upperHex code ++ ['\x7d']

/-- A character, by an escape unless it is visible ASCII or a space. -/
def renderChar (c : Char) : List Char :=
  if c = '\t' then ['\\', 't']
  else if c = '\n' then ['\\', 'n']
  else if c = '\r' then ['\\', 'r']
  else if c.toNat < 0x20 ∨ 0x7F ≤ c.toNat then codeEscape c.toNat
  else [c]

def renderLiteral (c : Char) : List Char :=
  if c ∈ special then ['\\', c] else renderChar c

/-- An end of a class range. In a set with settled surrogates it is a character. -/
def renderClassPoint (p : Int) : List Char :=
  match Point.char? p with
  | some c => if c ∈ classSpecial then ['\\', c] else renderChar c
  | none => codeEscape p.toNat

def renderClassSpan (r : Span) : List Char :=
  renderClassPoint r.start ++ if r.length > 1 then '-' :: renderClassPoint (r.stop - 1) else []

def renderChars (s : PointSet) : List Char :=
  if s = PointSet.codePoints then ['.']
  else match s.char? with
    | some c => renderLiteral c
    | none =>
      if s.isEmpty then '[' :: '^' :: renderClassSpan Span.codePoints ++ [']']
      else '[' :: s.spans.flatMap renderClassSpan ++ [']']

/-- A set; as no class holds the end of input, a member of that kind becomes an alternative. -/
def renderSet (s : PointSet) : List Char :=
  let chars := (s.remove (Span.single Point.endOfInput)).settleSurrogates
  if s.contains Point.endOfInput then
    ['(', '?', ':'] ++ (if chars.isEmpty then [] else renderChars chars ++ ['|']) ++ ['$', ')']
  else renderChars chars

def renderQuantifier (min : Nat) (max : Option Nat) : List Char :=
  match min, max with
  | 0, none => ['*']
  | 1, none => ['+']
  | 0, some 1 => ['?']
  | m, none => '\x7b' :: Digits.decimal m ++ [',', '\x7d']
  | m, some n =>
    if m = n then '\x7b' :: Digits.decimal m ++ ['\x7d']
    else '\x7b' :: Digits.decimal m ++ ',' :: Digits.decimal n ++ ['\x7d']

/-- Whether a quantifier may follow the written form as it is. -/
def isAtom : Node → Bool
  | endOfInput => true
  | group _ _ => true
  | text cs => cs.length == 1
  | set s => !s.contains Point.endOfInput
  | _ => false

def isOneOf : Node → Bool
  | oneOf _ _ => true
  | _ => false

def enclosed (needed : Bool) (cs : List Char) : List Char :=
  if needed then ['(', '?', ':'] ++ cs ++ [')'] else cs

mutual

def render : Node → List Char
  | empty => []
  | endOfInput => ['$']
  | text cs => cs.flatMap renderLiteral
  | set s => renderSet s
  | concat ns => renderParts ns
  | oneOf a b => render a ++ '|' :: render b
  | repeated n min max reluctant =>
    enclosed (!n.isAtom) (render n) ++ renderQuantifier min max ++ if reluctant then ['?'] else []
  | group (.index _) n => '(' :: render n ++ [')']
  | group (.name s) n => ['(', '?', '<'] ++ s.toList ++ '>' :: render n ++ [')']

def renderParts : List Node → List Char
  | [] => []
  | n :: ns => enclosed n.isOneOf (render n) ++ renderParts ns

end

def toText (n : Node) : String := String.ofList (render n)

/-! ### Nesting -/

def charsNesting (s : PointSet) : Nat :=
  if s = PointSet.codePoints ∨ s.char?.isSome then 0 else 1

def setNesting (s : PointSet) : Nat :=
  let chars := (s.remove (Span.single Point.endOfInput)).settleSurrogates
  if s.contains Point.endOfInput then (if chars.isEmpty then 0 else charsNesting chars) + 1
  else charsNesting chars

mutual

/-- How deep groups and classes nest in the written form. -/
def nesting : Node → Nat
  | set s => setNesting s
  | concat ns => nestingAll ns
  | oneOf a b => max (nesting a) (nesting b)
  | repeated n _ _ _ => nesting n + (!n.isAtom).toNat
  | group _ n => nesting n + 1
  | _ => 0

def nestingAll : List Node → Nat
  | [] => 0
  | n :: ns => max (nesting n + n.isOneOf.toNat) (nestingAll ns)

end

end PatternAutomata.Node
