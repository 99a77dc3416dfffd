import PatternAutomata.Proofs.Reluctance

/-!
The longest match that a feed of a whole text comes across. The feed goes on for as long as
something consumes the next character. A match that is all that it consumed is reported; a shorter
one is forgotten on the way out of its last state.
-/

set_option autoImplicit false

namespace PatternAutomata

namespace Node

def acceptingText (nodes : List Node) (cs : List Char) : Set ℕ :=
  {i | ∃ n, nodes[i]? = some n ∧ cs.map Point.ofChar ∈ n.words}

/-- Of the beginnings of `taken`, but for the empty one, `cs` is the longest that is accepted. -/
structure IsLongestMatch (nodes : List Node) (taken cs : List Char) : Prop where
  begins : cs <+: taken
  ne_nil : cs ≠ []
  accepted : (acceptingText nodes cs).Nonempty
  longest : ∀ other, other <+: taken → other ≠ [] → (acceptingText nodes other).Nonempty →
    other.length ≤ cs.length

theorem accepting_ofChar (nodes : List Node) (cs : List Char) :
    accepting nodes (cs.map Point.ofChar) = acceptingText nodes cs := by
  ext i
  refine exists_congr fun n => and_congr_right fun _ => ⟨?_, fun h => ⟨_, h, 0, ?_⟩⟩
  · rintro ⟨u, hu, k, hk⟩
    cases k with
    | zero =>
      rw [List.replicate_zero, List.append_nil] at hk
      exact hk ▸ hu
    | succ k =>
      -- There is no end of input among characters.
      refine absurd (hk ▸ List.mem_append_right u ?_) (endOfInput_not_mem cs)
      exact List.mem_replicate.2 ⟨Nat.succ_ne_zero k, rfl⟩
  · exact (List.append_nil _).symm

section

variable {nodes : List Node} {taken cs : List Char} (hne : taken ≠ [])
  (haccepted : (acceptingText nodes taken).Nonempty)

include hne haccepted

theorem isLongestMatch_all : IsLongestMatch nodes taken taken where
  begins := List.prefix_rfl
  ne_nil := hne
  accepted := haccepted
  longest _ hother _ _ := hother.length_le

theorem IsLongestMatch.eq_all (h : IsLongestMatch nodes taken cs) : cs = taken :=
  h.begins.eq_of_length_le (h.longest taken List.prefix_rfl hne haccepted)

end

end Node

namespace Matcher

open Dfa (InRange)

theorem Located.domain_iff {nodes : List Node} {limit : Option ℕ} {d : Dfa}
    (hc : ∀ n ∈ nodes, Nfa.Counted n) (hd : (Nfa.ofNodes nodes).determinize limit = .ok d)
    {w : List ℤ} {q : ℕ} {domain : Option ℕ} (h : Located d w q domain) (i : ℕ) :
    domain = some i ↔ w ≠ [] ∧ IsLeast (Node.accepting nodes w) i := by
  have hreported := Subset.reported_accepting_iff hc hd w i
  rw [h.run, Option.bind_some] at hreported
  rw [h.domain, ← hreported]
  by_cases hw : w = []
  · rw [if_pos hw]
    exact ⟨fun hnone => absurd hnone (Option.some_ne_none i).symm, fun hne => absurd hw hne.1⟩
  · rw [if_neg hw]
    exact ⟨fun hsome => ⟨hw, hsome⟩, fun hsome => hsome.2⟩

theorem Halts.isSome_iff {d : Dfa} {q : ℕ} {left : List Char} {state : Option ℕ}
    (h : Halts d false q left state) : state.isSome = true ↔ left = [] := by
  cases h with
  | done => exact ⟨fun _ => rfl, fun _ => rfl⟩
  | stopped hs => cases hs
  | failed =>
    constructor
    · intro hsome
      cases hsome
    · intro hnil
      cases hnil

/-- A feed that does not stop reluctantly goes on for as long as something consumes the next
character. -/
theorem Halts.not_continues {a : Nfa} {limit : Option ℕ} {d : Dfa} (ha : Nfa.InRange a)
    (hd : a.determinize limit = .ok d) {w : List ℤ} {q : ℕ} (hq : d.run? Dfa.start w = some q)
    {c : Char} {left : List Char} {state : Option ℕ} (h : Halts d false q (c :: left) state) :
    ¬ a.Continues w (Point.ofChar c) := by
  have hends := Subset.ends_of_halts ha hd hq h
  have hfailed : state.isSome = false := by
    rw [← Bool.not_eq_true, h.isSome_iff]
    exact List.cons_ne_nil c left
  rw [hfailed] at hends
  cases hends with
  | stuck hstuck => exact hstuck

end Matcher

namespace Builder

end Builder

end PatternAutomata
