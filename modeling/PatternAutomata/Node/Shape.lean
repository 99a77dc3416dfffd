import PatternAutomata.Node.Grammar
import PatternAutomata.Node.Parser

/-!
The groups of a pattern, and the patterns that have a written form: their counts are in order, and
the names of their groups can be written and are distinct. A tree that was read is tidy besides, and
its groups are numbered. A property of all places in a pattern is one of every tree that occurs in
it.

At the end is the grammar of written patterns again, with the tree of each form in place of its
meaning. The index `next` is the number that the next capturing group gets. The written form of a
tree has enclosures that the pattern need not have: those of a repetition that is repeated without a
group around it, and of a start that is, and the brackets of a class that was given by an escape
alone. The index `extra` counts how many of these there are one inside another.
-/

set_option autoImplicit false

/-! ### Groups and written forms -/

namespace PatternAutomata

def GroupId.name? : GroupId → Option String
  | index _ => none
  | name s => some s

namespace Node

mutual

/-- The identities of the capturing groups, in the order in which the groups begin. -/
def groups : Node → List GroupId
  | concat ns => groupsAll ns
  | oneOf a b => groups a ++ groups b
  | repeated n _ _ _ => groups n
  | group id n => id :: groups n
  | _ => []

def groupsAll : List Node → List GroupId
  | [] => []
  | n :: ns => groups n ++ groupsAll ns

end

def groupNames (n : Node) : List String := n.groups.filterMap GroupId.name?

mutual

def Ordered : Node → Prop
  | concat ns => OrderedAll ns
  | oneOf a b => Ordered a ∧ Ordered b
  | repeated n min max _ => min < 2 ^ 32 ∧ (∀ m, max = some m → min ≤ m ∧ m < 2 ^ 32) ∧ Ordered n
  | group _ n => Ordered n
  | _ => True

def OrderedAll : List Node → Prop
  | [] => True
  | n :: ns => Ordered n ∧ OrderedAll ns

end

structure Printable (n : Node) : Prop where
  ordered : n.Ordered
  distinct : n.groupNames.Nodup
  names : ∀ s ∈ n.groupNames, Grammar.IsName s

/-- The groups without a name have their places for numbers, counted from `next`. -/
def Numbered : (next : ℕ) → List GroupId → Prop
  | _, [] => True
  | next, id :: ids => (∀ i, id = .index i → i = next) ∧ Numbered (next + 1) ids

def Apart : Node → Node → Prop
  | text _, text _ => False
  | _, _ => True

mutual

/-- A tree with nothing to merge, leave out or settle, whose counts are in order and whose names can
be written. -/
def Tidy : Node → Prop
  | text cs => cs ≠ []
  | set s => s.contains Point.endOfInput = false ∧ s.settleSurrogates = s
  | concat ns => 2 ≤ ns.length ∧ ns.IsChain Apart ∧ TidyAll ns
  | oneOf a b => Tidy a ∧ Tidy b
  | repeated n min max _ => min < 2 ^ 32 ∧ (∀ m, max = some m → min ≤ m ∧ m < 2 ^ 32) ∧ Tidy n
  | group id n => (∀ s ∈ id.name?, Grammar.IsName s) ∧ Tidy n
  | _ => True

def TidyAll : List Node → Prop
  | [] => True
  | n :: ns => n ≠ empty ∧ Tidy n ∧ TidyAll ns

end

/-- How many characters of a written form are ones that open a group or a class, escaped or not. -/
def openers (w : List Char) : ℕ := w.count '(' + w.count '['

/-! ### Places -/

inductive OccursIn (m : Node) : Node → Prop
  | here : OccursIn m m
  | part {ns : List Node} {n : Node} (hn : n ∈ ns) (h : OccursIn m n) : OccursIn m (concat ns)
  | first {a b : Node} (h : OccursIn m a) : OccursIn m (oneOf a b)
  | second {a b : Node} (h : OccursIn m b) : OccursIn m (oneOf a b)
  | operand {n : Node} {min : ℕ} {max : Option ℕ} {lazily : Bool} (h : OccursIn m n) :
    OccursIn m (repeated n min max lazily)
  | inside {id : GroupId} {n : Node} (h : OccursIn m n) : OccursIn m (group id n)

def InOrder (n : Node) : Prop :=
  ∀ m min max lazily, (repeated m min (some max) lazily).OccursIn n → min ≤ max

/-- What is said of a place by itself, without the places below it. -/
def SoundHere : Node → Prop
  | text cs => cs ≠ []
  | set s => s.contains Point.endOfInput = false ∧
      ∀ r ∈ s.spans, (Point.char? r.start).isSome = true ∧ (Point.char? (r.stop - 1)).isSome = true
  | concat ns => 2 ≤ ns.length ∧ empty ∉ ns ∧ ns.IsChain Apart
  | repeated _ min max _ => ∀ m, max = some m → min ≤ m
  | _ => True

structure WellFormed (n : Node) : Prop where
  places : ∀ m : Node, m.OccursIn n → m.SoundHere
  numbered : ∀ (k : ℕ) (id : GroupId),
    n.groups[k]? = some id → id = .index (k + 1) ∨ ∃ s, id = .name s
  names : ∀ s ∈ n.groupNames, Grammar.IsName s
  distinct : n.groupNames.Nodup

end Node

/-! ### Trees of forms -/

def Node.inGroup (id : Option GroupId) (n : Node) : Node :=
  match id with
  | none => n
  | some id => .group id n

namespace Grammar

inductive Opening (next : ℕ) : List Char → Option GroupId → Prop
  | numbered : Opening next ['('] (some (.index next))
  | plain : Opening next ['(', '?', ':'] none
  | named {name : String} (h : IsName name) :
    Opening next ('(' :: '?' :: '<' :: (name.toList ++ ['>'])) (some (.name name))
  | lettered {name : String} (h : IsName name) :
    Opening next ('(' :: '?' :: 'P' :: '<' :: (name.toList ++ ['>'])) (some (.name name))

mutual

inductive UnionTree : (depth extra next : ℕ) → List Char → Node → Prop
  | single {depth extra next : ℕ} {w : List Char} {ns : List Node}
    (h : ConcatTree depth extra next w ns) :
    UnionTree depth extra next w (.ofParts ns.reverse)
  | more {depth extra extra' next : ℕ} {w v : List Char} {n : Node} {ns : List Node}
    (h : UnionTree depth extra next w n)
    (hv : ConcatTree depth extra' (next + n.groups.length) v ns) :
    UnionTree depth (max extra extra') next (w ++ '|' :: v) (.oneOf n (.ofParts ns.reverse))

inductive ConcatTree : (depth extra next : ℕ) → List Char → List Node → Prop
  | nil {depth next : ℕ} : ConcatTree depth 0 next [] []
  | snoc {depth extra extra' next : ℕ} {bare greedy : Bool} {w v : List Char} {ns : List Node}
    {n : Node} (h : ConcatTree depth extra next w ns)
    (hv : RepetitionTree depth extra' (next + (Node.groupsAll ns.reverse).length) bare greedy v n) :
    ConcatTree depth (max extra extra') next (w ++ v) (Parser.Branch.addPart n ns)

/-- A term or a start and any number of quantifiers. A `bare` one has to be enclosed where it is
repeated, though nothing encloses it in the pattern. -/
inductive RepetitionTree : (depth extra next : ℕ) → (bare greedy : Bool) → List Char → Node → Prop
  | term {depth extra next : ℕ} {w : List Char} {n : Node} (h : TermTree depth extra next w n) :
    RepetitionTree depth extra next false false w n
  | start {depth next : ℕ} : RepetitionTree depth 0 next true false ['^'] .empty
  | quantified {depth extra next : ℕ} {bare greedy lazily : Bool} {w q : List Char} {n : Node}
    {min : ℕ} {max : Option ℕ} (h : RepetitionTree depth extra next bare greedy w n)
    (hq : Quantifier q min max) (hb : greedy = true → q ≠ ['?']) :
    RepetitionTree depth (extra + bare.toNat) next true (!lazily)
      (w ++ (q ++ if lazily then ['?'] else [])) (.repeated n min max lazily)

inductive TermTree : (depth extra next : ℕ) → List Char → Node → Prop
  | literal {depth next : ℕ} {c : Char} (h : c ∉ reserved) :
    TermTree depth 0 next [c] (.text [c])
  | any {depth next : ℕ} : TermTree depth 0 next ['.'] .anyChar
  | stop {depth next : ℕ} : TermTree depth 0 next ['$'] .endOfInput
  | escape {depth next : ℕ} {w : List Char} {c : Char} (h : CharEscape w c) :
    TermTree depth 0 next w (.text [c])
  | classEscape {depth next : ℕ} {w : List Char} {members : ℤ → Prop} {s : PointSet}
    (h : ClassEscape w members) (hs : ∀ p, s.contains p = true ↔ members p) :
    TermTree depth 1 next w (.set s)
  | bracketed {depth next : ℕ} {w : List Char} {members : ℤ → Prop} {s : PointSet}
    (h : IsClass depth w members) (hs : ∀ p, s.contains p = true ↔ members p) :
    TermTree depth 0 next w (.set s)
  | group {depth extra next : ℕ} {head w : List Char} {id : Option GroupId} {n : Node}
    (hh : Opening next head id) (h : UnionTree depth extra (next + id.toList.length) w n) :
    TermTree (depth + 1) extra next (head ++ (w ++ [')'])) (n.inGroup id)

end

/-- A written pattern and its tree: groups and classes nest at most `depth` deep in the pattern, and
the written form of the tree adds at most `extra` enclosures one inside another. -/
def IsTree (depth extra : ℕ) (w : List Char) (n : Node) : Prop :=
  UnionTree depth extra 1 w n ∧ n.groupNames.Nodup

end Grammar

end PatternAutomata
