import PatternAutomata.Node

/-!
Regular expressions as general front ends produce them. They know bytes, line anchors and word
boundaries, which patterns over characters do not have.
-/

set_option autoImplicit false

namespace PatternAutomata

namespace Regex

inductive WordBoundary
  | unicode
  | unicodeNegated
  | ascii
  | asciiNegated
  deriving DecidableEq

inductive Quantifier
  | zeroOrOne
  | zeroOrMore
  | oneOrMore
  | exactly (n : Nat)
  | atLeast (n : Nat)
  | bounded (m n : Nat)
  deriving DecidableEq

def Quantifier.bounds : Quantifier → Nat × Option Nat
  | zeroOrOne => (0, some 1)
  | zeroOrMore => (0, none)
  | oneOrMore => (1, none)
  | exactly n => (n, some n)
  | atLeast n => (n, none)
  | bounded m n => (m, some n)

end Regex

inductive Regex
  | empty
  | char (c : Char)
  /-- A byte that is no character of its own. -/
  | byte (b : UInt8)
  /-- Characters, given by closed ranges whose ends may come in either order. -/
  | charClass (ranges : List (Char × Char))
  | byteClass (ranges : List (UInt8 × UInt8))
  | startText
  | endText
  | startLine
  | endLine
  | wordBoundary (kind : Regex.WordBoundary)
  | repeated (quantifier : Regex.Quantifier) (greedy : Bool) (body : Regex)
  /-- Only a capturing group has an identity. -/
  | group (id : Option GroupId) (body : Regex)
  | concat (parts : List Regex)
  | alternation (parts : List Regex)

namespace Regex

def ofParts : List Regex → Regex
  | [] => empty
  | [e] => e
  | e :: f :: es => concat (e :: f :: es)

def ofAlternatives : List Regex → Regex
  | [] => empty
  | [e] => e
  | e :: f :: es => alternation (e :: f :: es)

inductive Unsupported
  | byte
  | lineAnchor
  | wordBoundary
  deriving DecidableEq

def Unsupported.message : Unsupported → String
  | byte => "bytes that are not valid UTF-8 are not supported"
  | lineAnchor => "multi-line anchors are not supported, use \\A or ^ and \\z or $"
  | wordBoundary => "word boundary assertions (\\b and \\B) are not supported"

def lastAscii : UInt8 := 0x7F

def charOfByte (b : UInt8) : Char := Char.ofNat b.toNat

def ofByteClass (ranges : List (UInt8 × UInt8)) : Except Unsupported Node :=
  if ranges.any fun (a, b) => lastAscii < a || lastAscii < b then .error .byte
  else .ok (.set (.ofSpans (ranges.map fun (a, b) => .ofChars (charOfByte a) (charOfByte b))))

mutual

/-- The pattern that means the same. Matching begins at the start of the text, so an anchor there
asks for nothing. The first part without a counterpart, from the left, is reported. -/
def toNode : Regex → Except Unsupported Node
  | empty => .ok .empty
  | char c => .ok (.text [c])
  | byte b => if lastAscii < b then .error .byte else .ok (.text [charOfByte b])
  | charClass ranges => .ok (.set (.ofSpans (ranges.map fun (a, b) => .ofChars a b)))
  | byteClass ranges => ofByteClass ranges
  | startText => .ok .empty
  | endText => .ok .endOfInput
  | startLine => .error .lineAnchor
  | endLine => .error .lineAnchor
  | wordBoundary _ => .error .wordBoundary
  | repeated quantifier greedy body =>
    (toNode body).map fun n =>
      .repeated n quantifier.bounds.1 quantifier.bounds.2 (!greedy)
  | group none body => toNode body
  | group (some id) body => (toNode body).map (.group id)
  | concat parts => (toNodes parts).map .ofParts
  | alternation parts => (toNodes parts).map .ofAlternatives

def toNodes : List Regex → Except Unsupported (List Node)
  | [] => .ok []
  | e :: es => do
    let n ← toNode e
    let ns ← toNodes es
    return n :: ns

end

end Regex

end PatternAutomata
