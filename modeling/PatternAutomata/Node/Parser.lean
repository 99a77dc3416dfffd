import PatternAutomata.Node

/-!
Reading a written pattern, in one pass and one character at a time. What is open is kept on a
stack: the groups around the current place, each with the union that it interrupts, and inside of a
class the classes around it; a counter says how many they are. The state also says what the next
character continues, so that no character is looked at twice. From the loosest, a union is made of
concatenations, these of terms, and any number of quantifiers may follow a term, each made reluctant
by a question mark. An error says what is wrong, and the byte offset at which it shows.
-/

set_option autoImplicit false

/-! ### Errors -/

namespace PatternAutomata

inductive ParseProblem
  /-- Reported at the parenthesis that stays open. -/
  | groupUnclosed
  | groupUnopened
  | groupNameEmpty
  | groupNameInvalid
  | groupNameDuplicate (name : String)
  | groupFlagUnsupported
  /-- Reported at the bracket that stays open. -/
  | classUnclosed
  /-- The ends of a range are out of order, or the upper one is a whole class. -/
  | classRangeInvalid
  | escapeUnexpectedEnd
  | escapeUnrecognized (c : Char)
  | escapeHexInvalid
  /-- A quantifier without anything to repeat. -/
  | repetitionMissing
  | repetitionCountInvalid (min max : Nat)
  | repetitionCountMalformed
  | nestLimitExceeded (limit : Nat)
  deriving DecidableEq

def ParseProblem.message : ParseProblem → String
  | groupUnclosed => "unclosed group"
  | groupUnopened => "unopened group"
  | groupNameEmpty => "empty group name"
  | groupNameInvalid => "invalid group name"
  | groupNameDuplicate name => "duplicate group name \x27" ++ name ++ "\x27"
  | groupFlagUnsupported => "unsupported group syntax after \x27(?\x27"
  | classUnclosed => "unclosed character class"
  | classRangeInvalid => "invalid character class range"
  | escapeUnexpectedEnd => "incomplete escape sequence at end of pattern"
  | escapeUnrecognized c =>
    "unrecognized escape sequence \x27\\" ++ String.ofList [c] ++ "\x27"
  | escapeHexInvalid => "invalid hexadecimal escape sequence"
  | repetitionMissing => "repetition operator missing expression"
  | repetitionCountInvalid min max =>
    "invalid repetition count \x7b" ++ toString min ++ "," ++ toString max ++
      "\x7d: maximum is less than minimum"
  | repetitionCountMalformed => "malformed repetition count"
  | nestLimitExceeded limit => "exceeded nesting limit of " ++ toString limit

structure ParseError where
  problem : ParseProblem
  position : Nat
  deriving DecidableEq

def ParseError.message (e : ParseError) : String :=
  e.problem.message ++ " at position " ++ toString e.position

end PatternAutomata

/-! ### Reading -/

namespace PatternAutomata.Parser

/-- The last term of a concatenation, which a quantifier would repeat. -/
inductive Pending
  | none
  | term (node : Node)
  /-- A repetition that a question mark would make reluctant. -/
  | quantified (node : Node) (min : Nat) (max : Option Nat)

def Pending.node? : Pending → Option Node
  | none => Option.none
  | term n => some n
  | quantified n min max => some (.repeated n min max false)

/-- A union under construction: its closed alternatives, the parts of the open one in reverse, and
the term after those parts. -/
structure Branch where
  closed : Option Node
  parts : List Node
  pending : Pending

namespace Branch

def new : Branch := ⟨none, [], .none⟩

/-- Appends a part; empty ones vanish and neighbouring literals merge. -/
def addPart (n : Node) (parts : List Node) : List Node :=
  match n, parts with
  | .empty, ps => ps
  | .text cs, .text ds :: ps => .text (ds ++ cs) :: ps
  | n, ps => n :: ps

def settledParts (b : Branch) : List Node :=
  match b.pending.node? with
  | none => b.parts
  | some n => addPart n b.parts

def push (b : Branch) (n : Node) : Branch := ⟨b.closed, b.settledParts, .term n⟩

def close (b : Branch) : Node :=
  let last := Node.ofParts b.settledParts.reverse
  match b.closed with
  | none => last
  | some n => .oneOf n last

def nextAlternative (b : Branch) : Branch := ⟨some b.close, [], .none⟩

end Branch

/-- An open group, with the union that it interrupts. Only a capturing group has an identity. -/
structure OpenGroup where
  start : Nat
  id : Option GroupId
  outer : Branch

structure OpenClass where
  start : Nat
  negated : Bool
  members : PointSet

def OpenClass.value (c : OpenClass) : PointSet :=
  if c.negated then c.members.complement else c.members.settleSurrogates

def OpenClass.unite (c : OpenClass) (s : PointSet) : OpenClass :=
  { c with members := c.members.unite s }

inductive ClassPlace
  /-- Right after the bracket, where a negation may follow. -/
  | head
  /-- Before the first item, where a closing bracket is a literal. -/
  | first
  | items
  /-- After a character that may turn out to be the lower end of a range. -/
  | lower (c : Char) (start : Nat)
  /-- After such a character and a hyphen. -/
  | hyphen (c : Char) (start : Nat)

/-- Where an escape stands, which decides what becomes of the character or class that it names. -/
inductive EscapeSite
  | term
  | item (inner : OpenClass) (outer : List OpenClass)
  | upper (inner : OpenClass) (outer : List OpenClass) (lower : Char) (start : Nat)

inductive Count
  | min (value : Option Nat)
  | comma (min : Nat)
  | max (min value : Nat)

/-- What the next character continues. `start` is where the construct began. -/
inductive Mode
  | union
  | groupHead (start : Nat)
  | groupFlag (start : Nat)
  | groupFlagP (start flag : Nat)
  /-- A group name, its letters in reverse. -/
  | groupName (start nameStart : Nat) (letters : List Char)
  | count (start : Nat) (count : Count)
  | inClass (inner : OpenClass) (outer : List OpenClass) (place : ClassPlace)
  | escape (start : Nat) (site : EscapeSite)
  /-- After the letter that announces either four digits or digits in braces. -/
  | hexHead (start : Nat) (site : EscapeSite)
  | hexFixed (start : Nat) (site : EscapeSite) (missing value : Nat)
  | hexBraced (start : Nat) (site : EscapeSite) (length value : Nat)

structure State where
  /-- The bytes before the next character. -/
  offset : Nat
  /-- How many groups and classes are open. -/
  depth : Nat
  nextGroup : Nat
  names : List String
  groups : List OpenGroup
  branch : Branch
  mode : Mode

def State.initial : State := ⟨0, 0, 1, [], [], .new, .union⟩

abbrev Outcome := Except ParseError State

def fail (problem : ParseProblem) (position : Nat) : Outcome := .error ⟨problem, position⟩

def State.push (s : State) (n : Node) : State :=
  { s with branch := s.branch.push n, mode := .union }

def State.enterGroup (s : State) (start : Nat) (id : Option GroupId) : State :=
  { s with groups := ⟨start, id, s.branch⟩ :: s.groups, branch := .new, mode := .union }

def State.enterClass (s : State) (outer : List OpenClass) : State :=
  { s with mode := .inClass ⟨s.offset, false, .empty⟩ outer .head }

def State.deeper (s : State) : State := { s with depth := s.depth + 1 }

def State.leave (s : State) : State := { s with depth := s.depth - 1 }

/-- Goes on only if another group or class may be opened here, which counts from now on. -/
def enter (limit : Nat) (s next : State) : Outcome :=
  if limit ≤ s.depth then fail (.nestLimitExceeded limit) s.offset else .ok next.deeper

def decimalDigits : PointSet := .ofSpan (.ofChars '0' '9')

def blanks : PointSet := .ofSpans [.ofChars '\t' '\r', .ofChars ' ' ' ']

def wordChars : PointSet :=
  .ofSpans [.ofChars '0' '9', .ofChars 'A' 'Z', .ofChars '_' '_', .ofChars 'a' 'z']

def classEscape? : Char → Option PointSet
  | 'd' => some decimalDigits
  | 'D' => some decimalDigits.complement
  | 's' => some blanks
  | 'S' => some blanks.complement
  | 'w' => some wordChars
  | 'W' => some wordChars.complement
  | _ => none

def escapable : List Char :=
  ['\\', '.', '+', '*', '?', '(', ')', '|', '[', ']', '\x7b', '\x7d', '^', '$', '-', '/', '&', '~',
    '#', ' ']

def charEscape? : Char → Option Char
  | 't' => some '\t'
  | 'n' => some '\n'
  | 'r' => some '\r'
  | 'f' => some '\x0c'
  | 'v' => some '\x0b'
  | '0' => some '\x00'
  | c => if c ∈ escapable then some c else none

def isNameChar (c : Char) : Bool := c.isAlphanum || c == '_'

def countMax : Nat := 4294967295

def stepQuantifier (s : State) (c : Char) : Outcome :=
  match s.branch.pending, s.branch.pending.node?, c with
  | .quantified n min max, _, '?' =>
    .ok { s with branch := { s.branch with pending := .term (.repeated n min max true) } }
  | _, some n, '*' => .ok { s with branch := { s.branch with pending := .quantified n 0 none } }
  | _, some n, '+' => .ok { s with branch := { s.branch with pending := .quantified n 1 none } }
  | _, some n, '?' => .ok { s with branch := { s.branch with pending := .quantified n 0 (some 1) } }
  | _, some _, _ => .ok { s with mode := .count s.offset (.min none) }
  | _, none, _ => fail .repetitionMissing s.offset

def closeGroup (s : State) : Outcome :=
  match s.groups with
  | [] => fail .groupUnopened s.offset
  | g :: gs =>
    let inner := s.branch.close
    let node := match g.id with
      | none => inner
      | some id => .group id inner
    .ok { s.leave with groups := gs, branch := g.outer.push node }

def stepUnion (limit : Nat) (s : State) (c : Char) : Outcome :=
  match c with
  | '(' => enter limit s { s with mode := .groupHead s.offset }
  | ')' => closeGroup s
  | '|' => .ok { s with branch := s.branch.nextAlternative }
  | '[' => enter limit s (s.enterClass [])
  | '.' => .ok (s.push .anyChar)
  | '$' => .ok (s.push .endOfInput)
  | '^' => .ok (s.push .empty)
  | '\\' => .ok { s with mode := .escape s.offset .term }
  | '*' => stepQuantifier s c
  | '+' => stepQuantifier s c
  | '?' => stepQuantifier s c
  | '\x7b' => stepQuantifier s c
  | c => .ok (s.push (.text [c]))

def stepGroupHead (limit : Nat) (s : State) (start : Nat) (c : Char) : Outcome :=
  if c = '?' then .ok { s with mode := .groupFlag start }
  else
    let numbered := { s with nextGroup := s.nextGroup + 1 }
    stepUnion limit (numbered.enterGroup start (some (.index s.nextGroup))) c

def stepGroupFlag (s : State) (start : Nat) (c : Char) : Outcome :=
  match c with
  | ':' => .ok (s.enterGroup start none)
  | '<' => .ok { s with mode := .groupName start (s.offset + 1) [] }
  | 'P' => .ok { s with mode := .groupFlagP start s.offset }
  | _ => fail .groupFlagUnsupported s.offset

def stepGroupFlagP (s : State) (start flag : Nat) (c : Char) : Outcome :=
  if c = '<' then .ok { s with mode := .groupName start (s.offset + 1) [] }
  else fail .groupFlagUnsupported flag

/-- A named group takes a number too, so that the others are numbered by place. -/
def stepGroupName (s : State) (start nameStart : Nat) (letters : List Char) (c : Char) : Outcome :=
  if isNameChar c then .ok { s with mode := .groupName start nameStart (c :: letters) }
  else if c ≠ '>' then fail .groupNameInvalid s.offset
  else if letters.isEmpty then fail .groupNameEmpty nameStart
  else
    let name := String.ofList letters.reverse
    if s.names.contains name then fail (.groupNameDuplicate name) nameStart
    else
      let named := { s with nextGroup := s.nextGroup + 1, names := name :: s.names }
      .ok (named.enterGroup start (some (.name name)))

def finishCount (s : State) (start min : Nat) (max : Option Nat) : Outcome :=
  match s.branch.pending.node?, max with
  | none, _ => fail .repetitionMissing start
  | some n, none =>
    .ok { s with branch := { s.branch with pending := .quantified n min none }, mode := .union }
  | some n, some max =>
    if max < min then fail (.repetitionCountInvalid min max) start
    else .ok { s with
      branch := { s.branch with pending := .quantified n min (some max) }, mode := .union }

def appendDigit (s : State) (start value digit : Nat) (next : Nat → Count) : Outcome :=
  let value := value * 10 + digit
  if value ≤ countMax then .ok { s with mode := .count start (next value) }
  else fail .repetitionCountMalformed start

def stepCount (s : State) (start : Nat) (count : Count) (c : Char) : Outcome :=
  match count, Digits.decimalValue? c with
  | .min value, some d => appendDigit s start (value.getD 0) d fun v => .min (some v)
  | .comma min, some d => appendDigit s start 0 d (.max min)
  | .max min value, some d => appendDigit s start value d (.max min)
  | .min (some min), none =>
    if c = ',' then .ok { s with mode := .count start (.comma min) }
    else if c = '\x7d' then finishCount s start min (some min)
    else fail .repetitionCountMalformed start
  | .comma min, none =>
    if c = '\x7d' then finishCount s start min none else fail .repetitionCountMalformed start
  | .max min value, none =>
    if c = '\x7d' then finishCount s start min (some value)
    else fail .repetitionCountMalformed start
  | .min none, none => fail .repetitionCountMalformed start

/-- Ends the innermost class, which becomes a term or an item of the class around it. -/
def closeClass (s : State) (inner : OpenClass) : List OpenClass → State
  | [] => s.leave.push (.set inner.value)
  | o :: os => { s.leave with mode := .inClass (o.unite inner.value) os .items }

def stepItem (limit : Nat) (s : State) (inner : OpenClass) (outer : List OpenClass) (first : Bool)
    (c : Char) : Outcome :=
  if c = ']' ∧ first = false then .ok (closeClass s inner outer)
  else if c = '[' then enter limit s (s.enterClass (inner :: outer))
  else if c = '\\' then .ok { s with mode := .escape s.offset (.item inner outer) }
  else .ok { s with mode := .inClass inner outer (.lower c s.offset) }

def closeRange (s : State) (inner : OpenClass) (outer : List OpenClass) (lower : Char)
    (start : Nat) (upper : Char) : Outcome :=
  if upper < lower then fail .classRangeInvalid start
  else .ok { s with
    mode := .inClass (inner.unite (.ofSpan (.ofChars lower upper))) outer .items }

def stepClass (limit : Nat) (s : State) (inner : OpenClass) (outer : List OpenClass) :
    ClassPlace → Char → Outcome
  | .head, c =>
    if c = '^' then .ok { s with mode := .inClass { inner with negated := true } outer .first }
    else stepItem limit s inner outer true c
  | .first, c => stepItem limit s inner outer true c
  | .items, c => stepItem limit s inner outer false c
  | .lower lower start, c =>
    if c = '-' then .ok { s with mode := .inClass inner outer (.hyphen lower start) }
    else stepItem limit s (inner.unite (.single lower)) outer false c
  | .hyphen lower start, c =>
    if c = ']' then
      .ok (closeClass s ((inner.unite (.single lower)).unite (.single '-')) outer)
    else if c = '\\' then .ok { s with mode := .escape s.offset (.upper inner outer lower start) }
    else closeRange s inner outer lower start c

def deliverChar (s : State) (start : Nat) (site : EscapeSite) (c : Char) : Outcome :=
  match site with
  | .term => .ok (s.push (.text [c]))
  | .item inner outer => .ok { s with mode := .inClass inner outer (.lower c start) }
  | .upper inner outer lower itemStart => closeRange s inner outer lower itemStart c

def deliverClass (s : State) (site : EscapeSite) (members : PointSet) : Outcome :=
  match site with
  | .term => .ok (s.push (.set members))
  | .item inner outer => .ok { s with mode := .inClass (inner.unite members) outer .items }
  | .upper _ _ _ itemStart => fail .classRangeInvalid itemStart

def deliverCode (s : State) (start : Nat) (site : EscapeSite) (code : Nat) : Outcome :=
  match Point.char? code with
  | some c => deliverChar s start site c
  | none => fail .escapeHexInvalid start

def stepEscape (s : State) (start : Nat) (site : EscapeSite) (c : Char) : Outcome :=
  if c = 'x' then .ok { s with mode := .hexFixed start site 2 0 }
  else if c = 'u' then .ok { s with mode := .hexHead start site }
  else match classEscape? c, charEscape? c with
    | some members, _ => deliverClass s site members
    | none, some named => deliverChar s start site named
    | none, none => fail (.escapeUnrecognized c) start

def stepHexFixed (s : State) (start : Nat) (site : EscapeSite) (missing value : Nat) (c : Char) :
    Outcome :=
  match Digits.hexValue? c with
  | none => fail .escapeHexInvalid start
  | some d =>
    let value := value * 16 + d
    if missing ≤ 1 then deliverCode s start site value
    else .ok { s with mode := .hexFixed start site (missing - 1) value }

def stepHexHead (s : State) (start : Nat) (site : EscapeSite) (c : Char) : Outcome :=
  if c = '\x7b' then .ok { s with mode := .hexBraced start site 0 0 }
  else stepHexFixed s start site 4 0 c

def stepHexBraced (s : State) (start : Nat) (site : EscapeSite) (length value : Nat) (c : Char) :
    Outcome :=
  match Digits.hexValue? c with
  | some d =>
    if length < 6 then .ok { s with mode := .hexBraced start site (length + 1) (value * 16 + d) }
    else fail .escapeHexInvalid start
  | none =>
    if c = '\x7d' ∧ 0 < length then deliverCode s start site value
    else fail .escapeHexInvalid start

/-- Reads one character, without counting its bytes. -/
def stepMode (limit : Nat) (s : State) (c : Char) : Outcome :=
  match s.mode with
  | .union => stepUnion limit s c
  | .groupHead start => stepGroupHead limit s start c
  | .groupFlag start => stepGroupFlag s start c
  | .groupFlagP start flag => stepGroupFlagP s start flag c
  | .groupName start nameStart letters => stepGroupName s start nameStart letters c
  | .count start count => stepCount s start count c
  | .inClass inner outer place => stepClass limit s inner outer place c
  | .escape start site => stepEscape s start site c
  | .hexHead start site => stepHexHead s start site c
  | .hexFixed start site missing value => stepHexFixed s start site missing value c
  | .hexBraced start site length value => stepHexBraced s start site length value c

def step (limit : Nat) (s : State) (c : Char) : Outcome :=
  (stepMode limit s c).map fun next => { next with offset := s.offset + c.utf8Size }

def finish (s : State) : Except ParseError Node :=
  match s.mode, s.groups with
  | .union, [] => .ok s.branch.close
  | .union, g :: _ => .error ⟨.groupUnclosed, g.start⟩
  | .groupHead start, _ => .error ⟨.groupUnclosed, start⟩
  | .groupFlag _, _ => .error ⟨.groupFlagUnsupported, s.offset⟩
  | .groupFlagP _ flag, _ => .error ⟨.groupFlagUnsupported, flag⟩
  | .groupName _ _ _, _ => .error ⟨.groupNameInvalid, s.offset⟩
  | .count start _, _ => .error ⟨.repetitionCountMalformed, start⟩
  | .inClass inner _ _, _ => .error ⟨.classUnclosed, inner.start⟩
  | .escape start _, _ => .error ⟨.escapeUnexpectedEnd, start⟩
  | .hexHead start _, _ => .error ⟨.escapeHexInvalid, start⟩
  | .hexFixed start _ _ _, _ => .error ⟨.escapeHexInvalid, start⟩
  | .hexBraced start _ _ _, _ => .error ⟨.escapeHexInvalid, start⟩

def parseChars (limit : Nat) (cs : List Char) : Except ParseError Node :=
  cs.foldlM (step limit) State.initial >>= finish

def defaultNestLimit : Nat := 250

/-- The tree of a written pattern in which groups and classes nest at most `limit` deep. -/
def parse (limit : Nat) (pattern : String) : Except ParseError Node :=
  parseChars limit pattern.toList

end PatternAutomata.Parser
