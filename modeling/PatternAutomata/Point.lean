import PatternAutomata.Text

/-!
Points: the alphabet of every automaton. A point is an integer that stands for the end of input or
for a code point, so that an end-of-input anchor composes with ordinary characters. The end of
input sorts before every code point, and a range of points, a span, is half open.

States and patterns are known by identifiers: indices that fit a signed 32-bit word. A call that
breaks what an operation asks of its caller ends in a fault; faults are told apart from the errors
of a pattern, which are part of a normal answer.
-/

set_option autoImplicit false

/-! ### Points -/

namespace PatternAutomata.Point

def endOfInput : Int := -1

def top : Int := 0x110000

/-- The points proper: the end of input and every code point. -/
def InDomain (p : Int) : Prop := endOfInput ≤ p ∧ p < top

instance (p : Int) : Decidable (InDomain p) := inferInstanceAs (Decidable (_ ∧ _))

def ofChar (c : Char) : Int := (c.toNat : Int)

def char? (p : Int) : Option Char :=
  if h : 0 ≤ p ∧ p.toNat.isValidChar then some (Char.ofNatAux p.toNat h.2) else none

theorem char?_ofChar (c : Char) : char? (ofChar c) = some c := by
  have h : 0 ≤ ofChar c ∧ (ofChar c).toNat.isValidChar := ⟨by simp [ofChar], c.valid⟩
  rw [char?, dif_pos h]
  exact congrArg some (Char.ext rfl)

theorem ofChar_of_char? {p : Int} {c : Char} (h : char? p = some c) : ofChar c = p := by
  rw [char?] at h
  by_cases hv : 0 ≤ p ∧ p.toNat.isValidChar
  · rw [dif_pos hv] at h
    obtain rfl := Option.some.inj h
    exact Int.toNat_of_nonneg hv.1
  · rw [dif_neg hv] at h
    cases h

/-- A number written as a 32-bit word in two's complement, in hexadecimal. -/
def wordText (p : Int) : String :=
  "\\u\x7b" ++ String.ofList (Digits.upperHex (p % 0x100000000).toNat) ++ "\x7d"

def text (p : Int) : String :=
  if p = endOfInput then "EOI"
  else if p = 0x20 then "\x27 \x27"
  else if 0x21 ≤ p ∧ p ≤ 0x7E then
    match char? p with
    | some c => if c = '\\' ∨ c = '\x27' then String.ofList ['\\', c] else String.ofList [c]
    | none => wordText p
  else wordText p

end PatternAutomata.Point

/-! ### Identifiers -/

namespace PatternAutomata

inductive IdentKind
  | state
  | pattern
  deriving DecidableEq

namespace IdentKind

def word : IdentKind → String
  | state => "state"
  | pattern => "pattern"

def label : IdentKind → String
  | state => "StateID"
  | pattern => "PatternID"

end IdentKind

namespace Ident

def maximum : Nat := 2147483646

def capacity : Nat := maximum + 1

structure Overflow where
  kind : IdentKind
  attempted : Nat
  deriving DecidableEq

def Overflow.message (e : Overflow) : String :=
  "failed to create " ++ e.kind.word ++ " ID from " ++ toString e.attempted ++
    ", which exceeds " ++ e.kind.label ++ "(" ++ toString maximum ++ ")"

def make (kind : IdentKind) (index : Nat) : Except Overflow Nat :=
  if index ≤ maximum then .ok index else .error ⟨kind, index⟩

def text (kind : IdentKind) (id : Nat) : String := kind.label ++ "(" ++ toString id ++ ")"

end Ident

/-! ### Faults -/

inductive Fault
  /-- A range of points that is inverted or leaves the domain. -/
  | invalidRange (start stop : Int)
  /-- A feed that starts inside a character or past the end. -/
  | invalidStart (offset : Nat)
  | identOverflow (overflow : Ident.Overflow)
  /-- An index outside of an automaton, or the end of a feed inside a character or past the text. -/
  | outOfRange
  deriving DecidableEq

def Fault.message? : Fault → Option String
  | .invalidRange start stop =>
    some ("invalid point range [" ++ toString start ++ ", " ++ toString stop ++
      "): must satisfy " ++ toString Point.endOfInput ++ " <= start <= end <= " ++
      toString Point.top)
  | .invalidStart offset => some ("invalid start offset " ++ toString offset)
  | .identOverflow overflow => some overflow.message
  | .outOfRange => none

def Fault.checkState (length id : Nat) : Except Fault Nat :=
  match Ident.make .state id with
  | .error overflow => .error (.identOverflow overflow)
  | .ok id => if id < length then .ok id else .error .outOfRange

theorem ok_of_bind {ε α β : Type} {x : Except ε α} {f : α → Except ε β} {b : β}
    (h : x >>= f = .ok b) : ∃ a, x = .ok a ∧ f a = .ok b := by
  cases x with
  | error e => cases h
  | ok a => exact ⟨a, rfl, h⟩

theorem ok_of_map {ε α β : Type} {x : Except ε α} {f : α → β} {b : β} (h : x.map f = .ok b) :
    ∃ a, x = .ok a ∧ f a = b := by
  cases x with
  | error e => cases h
  | ok a => exact ⟨a, rfl, Except.ok.inj h⟩

theorem bind_of_ok {ε α β : Type} {x : Except ε α} {a : α} (h : x = .ok a) (f : α → Except ε β) :
    x >>= f = f a := by
  rw [h]
  rfl

theorem ok_of_mapError {ε ε' α : Type} {f : ε → ε'} {x : Except ε α} {a : α}
    (h : x.mapError f = .ok a) : x = .ok a := by
  cases x with
  | error e => cases h
  | ok b => exact congrArg Except.ok (Except.ok.inj h)

theorem mapError_of_ok {ε ε' α : Type} {x : Except ε α} {a : α} (h : x = .ok a) (f : ε → ε') :
    x.mapError f = .ok a := by
  rw [h]
  rfl

theorem ok_of_toOption {ε α : Type} {x : Except ε α} {a : α} (h : x.toOption = some a) :
    x = .ok a := by
  cases x with
  | error e => cases h
  | ok b => exact congrArg Except.ok (Option.some.inj h)

/-! ### Spans -/

structure Span where
  start : Int
  stop : Int
  deriving DecidableEq

namespace Span

def Valid (r : Span) : Prop :=
  Point.endOfInput ≤ r.start ∧ r.start ≤ r.stop ∧ r.stop ≤ Point.top

instance (r : Span) : Decidable r.Valid := inferInstanceAs (Decidable (_ ∧ _ ∧ _))

/-- The span `[start, stop)`; an inverted one, or one that leaves the domain, is refused. -/
def make (start stop : Int) : Except Fault Span :=
  if Valid ⟨start, stop⟩ then .ok ⟨start, stop⟩ else .error (.invalidRange start stop)

def single (p : Int) : Span := ⟨p, p + 1⟩

/-- The characters from `a` to `b`, both included; the two may come in either order. -/
def ofChars (a b : Char) : Span :=
  if a ≤ b then ⟨Point.ofChar a, Point.ofChar b + 1⟩ else ⟨Point.ofChar b, Point.ofChar a + 1⟩

def domain : Span := ⟨Point.endOfInput, Point.top⟩

def codePoints : Span := ⟨0, Point.top⟩

def surrogates : Span := ⟨0xD800, 0xE000⟩

def length (r : Span) : Nat := (r.stop - r.start).toNat

def isEmpty (r : Span) : Bool := r.stop ≤ r.start

def contains (r : Span) (p : Int) : Bool := r.start ≤ p && p < r.stop

def overlap (r s : Span) : Span := ⟨max r.start s.start, min r.stop s.stop⟩

theorem contains_iff {r : Span} {p : Int} : r.contains p = true ↔ r.start ≤ p ∧ p < r.stop := by
  simp [contains]

theorem isEmpty_iff {r : Span} : r.isEmpty = true ↔ r.stop ≤ r.start := by
  simp [isEmpty]

theorem contains_overlap (r s : Span) (p : Int) :
    (r.overlap s).contains p = (r.contains p && s.contains p) := by
  rw [Bool.eq_iff_iff, Bool.and_eq_true]
  simp only [contains_iff, overlap]
  omega

theorem Valid.contains_domain {r : Span} {p : Int} (hr : r.Valid) (hp : r.contains p = true) :
    domain.contains p = true := by
  have := contains_iff.1 hp
  obtain ⟨h1, -, h3⟩ := hr
  rw [contains_iff]
  simp only [domain]
  omega

theorem Valid.overlap_domain {r : Span} (hr : r.Valid) : r.overlap domain = r := by
  have hstart : max r.start domain.start = r.start := Int.max_eq_left hr.1
  have hstop : min r.stop domain.stop = r.stop := Int.min_eq_left hr.2.2
  rw [overlap, hstart, hstop]

theorem Valid.isEmpty_iff {r : Span} (hr : r.Valid) : r.isEmpty = true ↔ r.start = r.stop := by
  have := hr.2.1
  rw [Span.isEmpty_iff]
  omega

def text (r : Span) : String :=
  if r.stop - r.start = 1 then Point.text r.start
  else Point.text r.start ++ "-" ++ Point.text (r.stop - 1)

end Span

end PatternAutomata
