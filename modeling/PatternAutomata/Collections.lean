/-!
Collections. Strictly ascending lists are merged, and sorted with duplicates dropped. A sparse set
of small numbers has a dense array of the members in order of insertion, and an array that says for
each number where it would stand there; clearing resets only the length, so both arrays keep stale
entries, and a number is a member when the two point at each other below the length. A graph is
explored depth first into such a set.
-/

set_option autoImplicit false

/-! ### Ascending lists -/

namespace PatternAutomata.Ascending

variable {α : Type} [LT α] [DecidableLT α]

/-- Merges `x`, followed by what `rest` merges, into an ascending list. -/
def mergeFrom (x : α) (rest : List α → List α) : List α → List α
  | [] => x :: rest []
  | y :: ys =>
    if y < x then y :: mergeFrom x rest ys
    else if x < y then x :: rest (y :: ys)
    else x :: rest ys

def merge : List α → List α → List α
  | [], ys => ys
  | x :: xs, ys => mergeFrom x (merge xs) ys

def insert (x : α) (xs : List α) : List α := merge [x] xs

def ofList (xs : List α) : List α := xs.foldr insert []

def windows (xs : List α) : List (α × α) := xs.zip xs.tail

end PatternAutomata.Ascending

/-! ### Sparse sets -/

namespace PatternAutomata

structure SparseSet where
  length : Nat
  dense : Array Nat
  slots : Array Nat

namespace SparseSet

def ofCapacity (capacity : Nat) : SparseSet :=
  ⟨0, Array.replicate capacity 0, Array.replicate capacity 0⟩

def capacity (s : SparseSet) : Nat := s.dense.size

def contains (s : SparseSet) (id : Nat) : Bool :=
  match s.slots[id]? with
  | some slot => slot < s.length && s.dense[slot]? == some id
  | none => false

/-- Adds a number, and says whether it was missing. A number beyond the capacity is left out. -/
def insert (s : SparseSet) (id : Nat) : Bool × SparseSet :=
  if s.contains id then (false, s)
  else if id < s.slots.size then
    (true, ⟨s.length + 1, s.dense.setIfInBounds s.length id, s.slots.setIfInBounds id s.length⟩)
  else (true, s)

def clear (s : SparseSet) : SparseSet := { s with length := 0 }

def toList (s : SparseSet) : List Nat := (s.dense.extract 0 s.length).toList

/-! ### Exploration -/

/-- Explores what is on the stack, top first. Each round drops the nodes on top that are known and
records the next one, so `rounds` need not exceed the number of nodes left to record. -/
def exploreStack (successors : Nat → List Nat) :
    (rounds : Nat) → (stack : List Nat) → SparseSet → SparseSet
  | 0, _, s => s
  | rounds + 1, stack, s =>
    match stack.dropWhile s.contains with
    | [] => s
    | id :: rest => exploreStack successors rounds (successors id ++ rest) (s.insert id).2

/-- Adds `start` and all that can be reached from it without passing through a member. -/
def explore (successors : Nat → List Nat) (start : Nat) (s : SparseSet) : SparseSet :=
  exploreStack successors s.capacity [start] s

inductive Reaches (successors : Nat → List Nat) : Nat → Nat → Prop
  | refl (id : Nat) : Reaches successors id id
  | step {a b c : Nat} : b ∈ successors a → Reaches successors b c → Reaches successors a c

def Closed (successors : Nat → List Nat) (s : SparseSet) : Prop :=
  ∀ a, s.contains a = true → ∀ b ∈ successors a, s.contains b = true

end SparseSet

end PatternAutomata
