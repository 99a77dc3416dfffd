import PatternAutomata.Language

/-!
The grammar of written patterns, with what each form means. A union is made of concatenations, these
of repetitions, and these of terms and quantifiers. The index `depth` of a form is how deep groups
and classes may nest in it, and the names of its groups are collected in order.

Nothing here says how a pattern is read: a form is a relation between the characters of a pattern
and their meaning.
-/

set_option autoImplicit false

namespace PatternAutomata.Grammar

def reserved : List Char := ['(', ')', '|', '[', '.', '$', '^', '\\', '*', '+', '?', '\x7b']

inductive IsNumeral (base : ℕ) (value? : Char → Option ℕ) : List Char → ℕ → Prop
  | nil : IsNumeral base value? [] 0
  | snoc {ds : List Char} {v d : ℕ} {c : Char} (hv : IsNumeral base value? ds v)
    (hc : value? c = some d) : IsNumeral base value? (ds ++ [c]) (v * base + d)

def IsHex : List Char → ℕ → Prop := IsNumeral 16 Digits.hexValue?

/-- A decimal numeral that fits in 32 bits. -/
def IsCount (ds : List Char) (n : ℕ) : Prop :=
  ds ≠ [] ∧ IsNumeral 10 Digits.decimalValue? ds n ∧ n < 2 ^ 32

def controls : List (Char × Char) :=
  [('t', '\t'), ('n', '\n'), ('r', '\r'), ('f', '\x0c'), ('v', '\x0b'), ('0', '\x00')]

def signs : List Char :=
  ['\\', '.', '+', '*', '?', '(', ')', '|', '[', ']', '\x7b', '\x7d', '^', '$', '-', '/', '&', '~',
    '#', ' ']

inductive CharEscape : List Char → Char → Prop
  | control {c d : Char} (h : (c, d) ∈ controls) : CharEscape ['\\', c] d
  | itself {c : Char} (h : c ∈ signs) : CharEscape ['\\', c] c
  | twoDigits {ds : List Char} {c : Char} (h : IsHex ds c.toNat) (hl : ds.length = 2) :
    CharEscape ('\\' :: 'x' :: ds) c
  | fourDigits {ds : List Char} {c : Char} (h : IsHex ds c.toNat) (hl : ds.length = 4) :
    CharEscape ('\\' :: 'u' :: ds) c
  | braces {ds : List Char} {c : Char} (h : IsHex ds c.toNat) (hl : 1 ≤ ds.length)
    (hu : ds.length ≤ 6) : CharEscape ('\\' :: 'u' :: '\x7b' :: (ds ++ ['\x7d'])) c

def IsDigit (p : ℤ) : Prop := 48 ≤ p ∧ p ≤ 57

def IsBlank (p : ℤ) : Prop := (9 ≤ p ∧ p ≤ 13) ∨ p = 32

def IsWord (p : ℤ) : Prop := IsDigit p ∨ (65 ≤ p ∧ p ≤ 90) ∨ p = 95 ∨ (97 ≤ p ∧ p ≤ 122)

def IsCodePoint (p : ℤ) : Prop := 0 ≤ p ∧ p < Point.top

/-- A surrogate belongs to a class if the code points on both sides of the surrogates do. -/
def Settled (members : ℤ → Prop) (p : ℤ) : Prop :=
  if Span.surrogates.contains p = true then
    members (Span.surrogates.start - 1) ∧ members Span.surrogates.stop
  else members p

def Negated (members : ℤ → Prop) : ℤ → Prop := Settled fun p => IsCodePoint p ∧ ¬ members p

inductive ClassEscape : List Char → (ℤ → Prop) → Prop
  | digit : ClassEscape ['\\', 'd'] IsDigit
  | notDigit : ClassEscape ['\\', 'D'] (Negated IsDigit)
  | blank : ClassEscape ['\\', 's'] IsBlank
  | notBlank : ClassEscape ['\\', 'S'] (Negated IsBlank)
  | word : ClassEscape ['\\', 'w'] IsWord
  | notWord : ClassEscape ['\\', 'W'] (Negated IsWord)

/-- A character of a class. A closing bracket stands for itself only in the first place. -/
inductive LowerChar (first : Bool) : List Char → Char → Prop
  | plain {c : Char} (h : c ∉ ['[', ']', '\\']) : LowerChar first [c] c
  | bracket (h : first = true) : LowerChar first [']'] ']'
  | escape {w : List Char} {c : Char} (h : CharEscape w c) : LowerChar first w c

inductive UpperChar : List Char → Char → Prop
  | plain {c : Char} (h : c ∉ [']', '\\']) : UpperChar [c] c
  | escape {w : List Char} {c : Char} (h : CharEscape w c) : UpperChar w c

/-- What follows a character that is not the lower end of a range: a hyphen may follow only right
before the closing bracket. -/
def NoRange (rest : List Char) : Prop := ∀ c r, rest = '-' :: c :: r → c = ']'

inductive ClassHead : List Char → Bool → Prop
  | plain : ClassHead ['['] false
  | negated : ClassHead ['[', '^'] true

def classValue (negated : Bool) (members : ℤ → Prop) : ℤ → Prop :=
  if negated then Negated members else Settled members

mutual

inductive IsClass : ℕ → List Char → (ℤ → Prop) → Prop
  | mk {depth : ℕ} {head w : List Char} {negated : Bool} {members : ℤ → Prop}
    (hh : ClassHead head negated) (hw : negated = false → w.head? ≠ some '^')
    (h : ClassBody depth true w members) :
    IsClass (depth + 1) (head ++ w) (classValue negated members)

inductive ClassBody : ℕ → Bool → List Char → (ℤ → Prop) → Prop
  | close {depth : ℕ} : ClassBody depth false [']'] fun _ => False
  | single {depth : ℕ} {first : Bool} {w rest : List Char} {c : Char} {members : ℤ → Prop}
    (h : LowerChar first w c) (hr : NoRange rest) (hb : ClassBody depth false rest members) :
    ClassBody depth first (w ++ rest) fun p => p = Point.ofChar c ∨ members p
  | range {depth : ℕ} {first : Bool} {w v rest : List Char} {c d : Char} {members : ℤ → Prop}
    (hc : LowerChar first w c) (hd : UpperChar v d) (hcd : c ≤ d)
    (hb : ClassBody depth false rest members) :
    ClassBody depth first (w ++ '-' :: (v ++ rest)) fun p =>
      (Point.ofChar c ≤ p ∧ p ≤ Point.ofChar d) ∨ members p
  | escape {depth : ℕ} {first : Bool} {w rest : List Char} {named members : ℤ → Prop}
    (h : ClassEscape w named) (hb : ClassBody depth false rest members) :
    ClassBody depth first (w ++ rest) fun p => named p ∨ members p
  | nested {depth : ℕ} {first : Bool} {w rest : List Char} {inner members : ℤ → Prop}
    (h : IsClass depth w inner) (hb : ClassBody depth false rest members) :
    ClassBody depth first (w ++ rest) fun p => inner p ∨ members p

end

inductive Quantifier : List Char → ℕ → Option ℕ → Prop
  | star : Quantifier ['*'] 0 none
  | plus : Quantifier ['+'] 1 none
  | option : Quantifier ['?'] 0 (some 1)
  | exactly {ds : List Char} {n : ℕ} (h : IsCount ds n) :
    Quantifier ('\x7b' :: (ds ++ ['\x7d'])) n (some n)
  | atLeast {ds : List Char} {n : ℕ} (h : IsCount ds n) :
    Quantifier ('\x7b' :: (ds ++ [',', '\x7d'])) n none
  | bounded {ds es : List Char} {m n : ℕ} (hm : IsCount ds m) (hn : IsCount es n) (h : m ≤ n) :
    Quantifier ('\x7b' :: (ds ++ ',' :: (es ++ ['\x7d']))) m (some n)

def IsNameChar (c : Char) : Prop :=
  ('a' ≤ c ∧ c ≤ 'z') ∨ ('A' ≤ c ∧ c ≤ 'Z') ∨ ('0' ≤ c ∧ c ≤ '9') ∨ c = '_'

def IsName (name : String) : Prop := name.toList ≠ [] ∧ ∀ c ∈ name.toList, IsNameChar c

inductive GroupHead : List Char → List String → Prop
  | numbered : GroupHead ['('] []
  | plain : GroupHead ['(', '?', ':'] []
  | named {name : String} (h : IsName name) :
    GroupHead ('(' :: '?' :: '<' :: (name.toList ++ ['>'])) [name]
  | lettered {name : String} (h : IsName name) :
    GroupHead ('(' :: '?' :: 'P' :: '<' :: (name.toList ++ ['>'])) [name]

/-- The words over points that a form stands for in a place that is reluctant or not, with each
point tagged as consumed reluctantly or not. -/
abbrev Meaning := Bool → Language (ℤ × Bool)

namespace Meaning

def onePoint (members : ℤ → Prop) : Meaning := fun r => {w | ∃ p, members p ∧ w = [(p, r)]}

def repeated (m : Meaning) (min : ℕ) (max : Option ℕ) (lazily : Bool) : Meaning :=
  fun r => Node.unrolled (m r) (m (r || lazily)) min max

def language (m : Meaning) : Language ℤ := {w | ∃ u ∈ m false, u.map Prod.fst = w}

end Meaning

mutual

inductive IsUnion : ℕ → List Char → List String → Meaning → Prop
  | single {depth : ℕ} {w : List Char} {names : List String} {l : Meaning}
    (h : IsConcat depth w names l) : IsUnion depth w names l
  | more {depth : ℕ} {w v : List Char} {names more : List String} {l k : Meaning}
    (h : IsUnion depth w names l) (hk : IsConcat depth v more k) :
    IsUnion depth (w ++ '|' :: v) (names ++ more) (l + k)

inductive IsConcat : ℕ → List Char → List String → Meaning → Prop
  | nil {depth : ℕ} : IsConcat depth [] [] 1
  | snoc {depth : ℕ} {greedy : Bool} {w v : List Char} {names more : List String} {l k : Meaning}
    (h : IsConcat depth w names l) (hk : IsRepetition depth greedy v more k) :
    IsConcat depth (w ++ v) (names ++ more) (l * k)

/-- A term and any number of quantifiers. A question mark after a greedy quantifier makes that one
reluctant, and so is not a quantifier there. -/
inductive IsRepetition : ℕ → (greedy : Bool) → List Char → List String → Meaning → Prop
  | term {depth : ℕ} {w : List Char} {names : List String} {l : Meaning}
    (h : IsTerm depth w names l) : IsRepetition depth false w names l
  | greedy {depth : ℕ} {before : Bool} {w q : List Char} {names : List String} {l : Meaning}
    {m : ℕ} {n : Option ℕ} (h : IsRepetition depth before w names l) (hq : Quantifier q m n)
    (hb : before = true → q ≠ ['?']) :
    IsRepetition depth true (w ++ q) names (l.repeated m n false)
  | reluctant {depth : ℕ} {before : Bool} {w q : List Char} {names : List String} {l : Meaning}
    {m : ℕ} {n : Option ℕ} (h : IsRepetition depth before w names l) (hq : Quantifier q m n)
    (hb : before = true → q ≠ ['?']) :
    IsRepetition depth false (w ++ (q ++ ['?'])) names (l.repeated m n true)

inductive IsTerm : ℕ → List Char → List String → Meaning → Prop
  | literal {depth : ℕ} {c : Char} (h : c ∉ reserved) :
    IsTerm depth [c] [] (.onePoint (· = Point.ofChar c))
  | any {depth : ℕ} : IsTerm depth ['.'] [] (.onePoint IsCodePoint)
  | start {depth : ℕ} : IsTerm depth ['^'] [] 1
  | stop {depth : ℕ} : IsTerm depth ['$'] [] (.onePoint (· = Point.endOfInput))
  | escape {depth : ℕ} {w : List Char} {c : Char} (h : CharEscape w c) :
    IsTerm depth w [] (.onePoint (· = Point.ofChar c))
  | classEscape {depth : ℕ} {w : List Char} {members : ℤ → Prop} (h : ClassEscape w members) :
    IsTerm depth w [] (.onePoint members)
  | bracketed {depth : ℕ} {w : List Char} {members : ℤ → Prop} (h : IsClass depth w members) :
    IsTerm depth w [] (.onePoint members)
  | group {depth : ℕ} {head w : List Char} {names more : List String} {l : Meaning}
    (hh : GroupHead head names) (h : IsUnion depth w more l) :
    IsTerm (depth + 1) (head ++ (w ++ [')'])) (names ++ more) l

end

/-- A written pattern whose groups and classes nest at most `depth` deep and whose names are
distinct, with its meaning. -/
def IsPattern (depth : ℕ) (w : List Char) (m : Meaning) : Prop :=
  ∃ names, IsUnion depth w names m ∧ names.Nodup

end PatternAutomata.Grammar
