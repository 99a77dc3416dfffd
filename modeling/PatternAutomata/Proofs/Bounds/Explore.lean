import PatternAutomata.Proofs.Bounds.Access
import PatternAutomata.Proofs.SparseSet

/-!
Sparse sets by checked access. Neither looking a number up nor adding it leaves the two arrays, as
long as it is below the capacity; and so an exploration of a graph that fits into the set stays
inside of them, and is over by the time its rounds are.
-/

set_option autoImplicit false

namespace PatternAutomata.SparseSet

open Fault (read write)

def checkedOfCapacity (capacity : ℕ) : Except Fault SparseSet :=
  if capacity ≤ Ident.capacity then .ok (ofCapacity capacity) else .error .outOfRange

def checkedContains (s : SparseSet) (id : ℕ) : Except Fault Bool := do
  let slot ← read s.slots id
  if slot < s.length then return (← read s.dense slot) == id
  else return false

def checkedInsert (s : SparseSet) (id : ℕ) : Except Fault (Bool × SparseSet) := do
  if ← s.checkedContains id then return (false, s)
  else return (true, ⟨s.length + 1, ← write s.dense s.length id, ← write s.slots id s.length⟩)

def checkedToList (s : SparseSet) : Except Fault (List ℕ) :=
  if s.length ≤ s.dense.size then .ok s.toList else .error .outOfRange

def checkedSkip (s : SparseSet) : (stack : List ℕ) → Except Fault (List ℕ)
  | [] => .ok []
  | id :: rest => do
    if ← s.checkedContains id then s.checkedSkip rest else return id :: rest

/-- Like `exploreStack`, where it is a fault too if there is a node left to record after all
rounds. -/
def checkedExploreStack (successors : ℕ → Except Fault (List ℕ)) :
    (rounds : ℕ) → (stack : List ℕ) → SparseSet → Except Fault SparseSet
  | 0, stack, s => do
    match ← s.checkedSkip stack with
    | [] => return s
    | _ :: _ => .error .outOfRange
  | rounds + 1, stack, s => do
    match ← s.checkedSkip stack with
    | [] => return s
    | id :: rest =>
      let inserted ← s.checkedInsert id
      let next ← successors id
      checkedExploreStack successors rounds (next ++ rest) inserted.2

def checkedExplore (successors : ℕ → Except Fault (List ℕ)) (start : ℕ) (s : SparseSet) :
    Except Fault SparseSet :=
  checkedExploreStack successors s.capacity [start] s

variable {s : SparseSet} {id : ℕ}

theorem WellFormed.checkedContains_eq (h : s.WellFormed) (hid : id < s.capacity) :
    s.checkedContains id = .ok (s.contains id) := by
  have hslot : id < s.slots.size := h.size_slots ▸ hid
  rw [checkedContains, bind_of_ok (Fault.read_of_lt hslot), contains,
    Array.getElem?_eq_getElem hslot]
  dsimp only
  split
  case isTrue hlt =>
    have hdense : s.slots[id] < s.dense.size := Nat.lt_of_lt_of_le hlt h.length_le
    rw [bind_of_ok (Fault.read_of_lt hdense), Array.getElem?_eq_getElem hdense, decide_eq_true hlt,
      Bool.true_and]
    rfl
  case isFalse hge =>
    rw [decide_eq_false hge, Bool.false_and]
    rfl

theorem WellFormed.checkedInsert_eq (h : s.WellFormed) (hid : id < s.capacity) :
    s.checkedInsert id = .ok (s.insert id) := by
  rw [checkedInsert, bind_of_ok (h.checkedContains_eq hid), SparseSet.insert]
  split
  case isTrue => rfl
  case isFalse hc =>
    have hslot : id < s.slots.size := h.size_slots ▸ hid
    rw [bind_of_ok (Fault.write_of_lt (h.length_lt hid hc) id),
      bind_of_ok (Fault.write_of_lt hslot s.length), if_pos hslot]
    rfl

theorem WellFormed.checkedToList_eq (h : s.WellFormed) : s.checkedToList = .ok s.toList :=
  if_pos h.length_le

theorem WellFormed.checkedSkip_eq (h : s.WellFormed) {stack : List ℕ}
    (hstack : ∀ a ∈ stack, a < s.capacity) :
    s.checkedSkip stack = .ok (stack.dropWhile s.contains) := by
  induction stack with
  | nil => rfl
  | cons id rest ih =>
    rw [checkedSkip, bind_of_ok (h.checkedContains_eq (hstack id List.mem_cons_self)),
      List.dropWhile_cons, ih fun a ha => hstack a (List.mem_cons_of_mem _ ha)]
    split <;> rfl

section

variable {checked : ℕ → Except Fault (List ℕ)} {successors : ℕ → List ℕ}

theorem WellFormed.checkedExploreStack_eq {rounds : ℕ} {stack : List ℕ} (h : s.WellFormed)
    (hchecked : ∀ a < s.capacity, checked a = .ok (successors a))
    (hsucc : ∀ a, ∀ b ∈ successors a, b < s.capacity) (hstack : ∀ a ∈ stack, a < s.capacity)
    (hrounds : s.capacity ≤ s.length + rounds) :
    checkedExploreStack checked rounds stack s = .ok (exploreStack successors rounds stack s) := by
  induction rounds generalizing stack s with
  | zero =>
    rw [checkedExploreStack, bind_of_ok (h.checkedSkip_eq hstack)]
    cases hcons : stack.dropWhile s.contains with
    | nil => rfl
    | cons id rest =>
      -- Without rounds left every number is a member, so that nothing new is on the stack.
      obtain ⟨hc, hsub⟩ := new_of_dropWhile hcons
      have := h.length_lt (hstack id (hsub List.mem_cons_self)) hc
      omega
  | succ rounds ih =>
    rw [checkedExploreStack, bind_of_ok (h.checkedSkip_eq hstack), exploreStack]
    cases hcons : stack.dropWhile s.contains with
    | nil => rfl
    | cons id rest =>
      obtain ⟨hc, hsub⟩ := new_of_dropWhile hcons
      have hid : id < s.capacity := hstack id (hsub List.mem_cons_self)
      have hcap := capacity_insert s id
      dsimp only
      rw [bind_of_ok (h.checkedInsert_eq hid), bind_of_ok (hchecked id hid)]
      refine ih (h.insert id) (by rwa [hcap]) (by rwa [hcap])
        (lt_of_mem_pushed hsucc hstack hsub) ?_
      rw [hcap, h.length_insert hid hc]
      omega

theorem WellFormed.checkedExplore_eq {start : ℕ} (h : s.WellFormed)
    (hchecked : ∀ a < s.capacity, checked a = .ok (successors a))
    (hsucc : ∀ a, ∀ b ∈ successors a, b < s.capacity) (hstart : start < s.capacity) :
    s.checkedExplore checked start = .ok (s.explore successors start) :=
  h.checkedExploreStack_eq hchecked hsucc (fun a ha => by rwa [List.mem_singleton.1 ha])
    (Nat.le_add_left _ _)

end

end PatternAutomata.SparseSet
