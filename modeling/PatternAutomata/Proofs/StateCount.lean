import PatternAutomata.Node.Shape
import PatternAutomata.Proofs.Bounds.Assembly
import Mathlib.Algebra.Ring.Nat

/-!
How many states an automaton has, and when the limit on states refuses it: exactly when it would
have more. The states are counted beforehand or made one by one, which comes to the same.
-/

set_option autoImplicit false

namespace PatternAutomata.Nfa

def stateCountEach (nodes : List Node) : ℕ := (nodes.map fun n => stateCount n + 1).sum

theorem length_patternStates (ns : List Node) (pattern base : ℕ) :
    (patternStates ns pattern base).length = stateCountEach ns := by
  induction ns generalizing pattern base with
  | nil => rfl
  | cons n ns ih =>
    rw [patternStates, List.length_append, length_fragment, List.length_cons, ih, stateCountEach,
      stateCountEach, List.map_cons, List.sum_cons]
    omega

theorem size_ofNodes (nodes : List Node) : (ofNodes nodes).size = 1 + stateCountEach nodes := by
  rw [ofNodes, size, List.size_toArray, List.length_cons, length_patternStates, Nat.add_comm]

mutual

theorem counted_of_inOrder : (n : Node) → n.InOrder → Counted n
  | .empty, _ => by simp only [Counted]
  | .endOfInput, _ => by simp only [Counted]
  | .text _, _ => by simp only [Counted]
  | .set _, _ => by simp only [Counted]
  | .concat ns, h => by
    rw [Counted]
    exact countedAll_of_inOrder ns fun n hn m min max lazily hm => h m min max lazily (.part hn hm)
  | .oneOf a b, h => by
    rw [Counted]
    exact ⟨counted_of_inOrder a fun m min max lazily hm => h m min max lazily (.first hm),
      counted_of_inOrder b fun m min max lazily hm => h m min max lazily (.second hm)⟩
  | .repeated n min max lazily, h => by
    rw [Counted]
    refine ⟨?_, fun _ => counted_of_inOrder n fun m min max lazily hm =>
      h m min max lazily (.operand hm)⟩
    rintro m rfl
    exact h n min m lazily .here
  | .group _ n, h => by
    rw [Counted]
    exact counted_of_inOrder n fun m min max lazily hm => h m min max lazily (.inside hm)

theorem countedAll_of_inOrder : (ns : List Node) → (∀ n ∈ ns, n.InOrder) → CountedAll ns
  | [], _ => by simp only [CountedAll]
  | n :: ns, h => by
    obtain ⟨hn, hns⟩ := List.forall_mem_cons.1 h
    rw [CountedAll]
    exact ⟨counted_of_inOrder n hn, countedAll_of_inOrder ns hns⟩

end

section

variable {limits : Limits} {nodes : List Node}

theorem reservePatterns_of_counted {limit used : ℕ} (h : ∀ n ∈ nodes, Counted n)
    (hused : used ≤ limit) :
    reservePatterns limit nodes used = take limit used (stateCountEach nodes) := by
  induction nodes generalizing used with
  | nil => rw [reservePatterns, stateCountEach, List.map_nil, List.sum_nil, take_zero hused]
  | cons n ns ih =>
    obtain ⟨hn, hns⟩ := List.forall_mem_cons.1 h
    have hcount : stateCountEach (n :: ns) = stateCount n + (1 + stateCountEach ns) := by
      rw [stateCountEach, stateCountEach, List.map_cons, List.sum_cons, Nat.add_assoc]
    rw [reservePatterns, reserve_of_counted n hn hused, hcount, take_add]
    refine take_bind fun _ => ?_
    rw [take_add]
    exact take_bind fun h1 => ih hns h1

/-- Building patterns whose repetitions are the right way round can fail only for want of states. -/
theorem build_of_counted (hne : nodes ≠ []) (hp : nodes.length ≤ limits.patternLimit)
    (h : ∀ n ∈ nodes, Counted n) :
    build limits nodes =
      take limits.stateLimit 0 (ofNodes nodes).size >>= fun _ => .ok (ofNodes nodes) := by
  have hempty : ¬ nodes.isEmpty = true := mt List.isEmpty_iff.1 hne
  rw [build, if_neg hempty, if_neg (Nat.not_lt.2 hp), size_ofNodes, take_add, bind_assoc]
  refine take_bind fun h1 => ?_
  rw [reservePatterns_of_counted h h1]
  rfl

/-- An automaton is made if it has no more states than the limit allows, and has exactly as many as
its patterns account for. Otherwise the first state beyond the limit is refused, however many would
have followed. -/
theorem build_within (hne : nodes ≠ []) (hp : nodes.length ≤ limits.patternLimit)
    (h : ∀ n ∈ nodes, n.InOrder) :
    (1 + stateCountEach nodes ≤ limits.stateLimit →
      ∃ a, build limits nodes = .ok a ∧ checkedBuild limits nodes = .ok a ∧
        a.size = 1 + stateCountEach nodes) ∧
    (limits.stateLimit < 1 + stateCountEach nodes →
      build limits nodes = .error (.tooManyStates (limits.stateLimit + 1) limits.stateLimit) ∧
      checkedBuild limits nodes =
        .error (.refused (.tooManyStates (limits.stateLimit + 1) limits.stateLimit))) := by
  have hbuild := build_of_counted hne hp fun n hn => counted_of_inOrder n (h n hn)
  have hchecked := (checkedBuild_spec limits nodes).1
  rw [size_ofNodes, take, Nat.zero_add] at hbuild
  constructor
  · intro hle
    rw [if_pos hle] at hbuild
    exact ⟨_, hbuild, hchecked.trans (mapError_of_ok hbuild _), size_ofNodes nodes⟩
  · intro hlt
    rw [if_neg (Nat.not_le.2 hlt)] at hbuild
    refine ⟨hbuild, ?_⟩
    rw [hchecked, hbuild]
    rfl

end

def thousandfold (n : Node) : Node := .repeated n 1000 (some 1000) false

theorem inOrder_thousandfold {n : Node} (h : n.InOrder) : (thousandfold n).InOrder := by
  intro m min max lazily hm
  cases hm with
  | here => exact le_rfl
  | operand hm => exact h m min max lazily hm

theorem build_within_thousandfold :
    let nodes := [thousandfold (thousandfold (thousandfold (.text ['a'])))]
    nodes ≠ [] ∧ nodes.length ≤ Limits.unset.patternLimit ∧ (∀ n ∈ nodes, n.InOrder) ∧
      build .unset nodes = .error (.tooManyStates 100001 100000) := by
  intro nodes
  have hne : nodes ≠ [] := List.cons_ne_nil _ _
  have hp : nodes.length ≤ Limits.unset.patternLimit := by decide
  have hn : ∀ n ∈ nodes, n.InOrder := by
    intro n hn
    obtain rfl := List.mem_singleton.1 hn
    exact inOrder_thousandfold (inOrder_thousandfold (inOrder_thousandfold nofun))
  have hlt : Limits.unset.stateLimit < 1 + stateCountEach nodes := by
    simp [nodes, thousandfold, stateCountEach, stateCount, copiesCount, optionalCopies,
      Limits.stateLimit, Limits.unset, Limits.defaultStateLimit, Ident.capacity, Ident.maximum]
  exact ⟨hne, hp, hn, ((build_within hne hp hn).2 hlt).1⟩

end PatternAutomata.Nfa
