import PatternAutomata.Builder
import PatternAutomata.Proofs.Matcher
import PatternAutomata.Proofs.Simulation
import Mathlib.Order.Lattice.Nat

/-!
Whole texts. What a program reports on a text is what is reported in the state that its characters
and an end of input lead to, and that is the first pattern that matches.
-/

set_option autoImplicit false

namespace PatternAutomata

namespace Node

/-- A pattern matches a text, whether or not it consumes the end of input. -/
def Matches (n : Node) (text : String) : Prop :=
  text.toList.map Point.ofChar ∈ n.words ∨
    text.toList.map Point.ofChar ++ [Point.endOfInput] ∈ n.words

def matching (nodes : List Node) (text : String) : Set ℕ :=
  {i | ∃ n, nodes[i]? = some n ∧ n.Matches text}

theorem mem_closedWords_iff {n : Node} {w : List ℤ} (hw : Point.endOfInput ∉ w) :
    w ++ [Point.endOfInput] ∈ n.closedWords ↔
      w ∈ n.words ∨ w ++ [Point.endOfInput] ∈ n.words := by
  constructor
  · rintro ⟨u, hu, k, hk⟩
    cases k with
    | zero =>
      rw [List.replicate_zero, List.append_nil] at hk
      exact .inr (hk ▸ hu)
    | succ k =>
      rw [List.replicate_succ', ← List.append_assoc] at hk
      have hwu : w = u ++ List.replicate k Point.endOfInput := List.append_cancel_right hk
      -- More than one end of input would have to be in `w`.
      have hk0 : k = 0 := by
        by_contra hk0
        refine hw (hwu ▸ List.mem_append_right u ?_)
        exact List.mem_replicate.2 ⟨hk0, rfl⟩
      rw [hk0, List.replicate_zero, List.append_nil] at hwu
      exact .inl (hwu ▸ hu)
  · rintro (hu | hu)
    · exact ⟨w, hu, 1, rfl⟩
    · exact ⟨_, hu, 0, (List.append_nil _).symm⟩

theorem endOfInput_not_mem (cs : List Char) : Point.endOfInput ∉ cs.map Point.ofChar := by
  intro h
  obtain ⟨c, -, hc⟩ := List.mem_map.1 h
  exact Point.ofChar_ne_endOfInput c hc

theorem mem_closedWords_text {n : Node} {text : String} :
    text.toList.map Point.ofChar ++ [Point.endOfInput] ∈ n.closedWords ↔ n.Matches text :=
  mem_closedWords_iff (endOfInput_not_mem text.toList)

theorem accepting_text (nodes : List Node) (text : String) :
    accepting nodes (text.toList.map Point.ofChar ++ [Point.endOfInput]) =
      matching nodes text := by
  ext i
  exact exists_congr fun n => and_congr_right fun _ => mem_closedWords_text

end Node

namespace Program

theorem which_ofDfa {d : Dfa} (hd : d.InRange) (accelerate : Bool) (text : String) :
    (ofDfa d accelerate).which text =
      (d.run? Dfa.start (text.toList.map Point.ofChar ++ [Point.endOfInput])).bind d.reported := by
  have hgiven := ((Matcher.given_new hd).feedChars hd accelerate 0 text.toList).finish hd accelerate
  rw [List.nil_append] at hgiven
  rw [which]
  cases hgiven with
  | located hloc hstate =>
    have hdomain := hloc.domain
    rw [if_neg (List.append_ne_nil_of_right_ne_nil _ (List.cons_ne_nil _ _))] at hdomain
    simp only [Matcher.isValid, hstate, hloc.run, hdomain, Option.isSome_some, if_true,
      Option.bind_some]
  | failed hrun hstate =>
    simp only [Matcher.isValid, hstate, hrun, Option.isSome_none, Bool.false_eq_true, if_false,
      Option.bind_none]

end Program

namespace Subset

open Nfa (InRange ReachedOn)

/-- What is reported on a word is the least of the patterns that accept there. -/
theorem reported_run_iff {a : Nfa} {limit : Option ℕ} {d : Dfa} (ha : InRange a)
    (hd : a.determinize limit = .ok d) (w : List ℤ) (i : ℕ) :
    (d.run? Dfa.start w).bind d.reported = some i ↔
      IsLeast {i | ∃ j, ReachedOn a w j ∧ a.domain? j = some i} i := by
  obtain ⟨keys, hr⟩ := exists_keys hd
  rcases run_spec ha hr w with ⟨hq, hnone⟩ | ⟨q, key, hq, hkey, hk, -⟩
  · rw [hq]
    constructor
    · intro h
      cases h
    · rintro ⟨⟨j, hj, -⟩, -⟩
      exact absurd hj (hnone j)
  · obtain ⟨s, hs, hdomains, -⟩ := hr.state q key hkey
    have hset : {i | ∃ j, ReachedOn a w j ∧ a.domain? j = some i} = {i | i ∈ domainsOf a key} := by
      ext i
      exact hk.mem_domainsOf.symm
    rw [hq, Option.bind_some, Dfa.reported_eq hs, Dfa.State.domain?, hdomains, hset]
    exact Ascending.head?_eq_some_iff (Ascending.pairwise_ofList _)

theorem reported_accepting_iff {nodes : List Node} {limit : Option ℕ} {d : Dfa}
    (hc : ∀ n ∈ nodes, Nfa.Counted n) (hd : (Nfa.ofNodes nodes).determinize limit = .ok d)
    (w : List ℤ) (i : ℕ) :
    (d.run? Dfa.start w).bind d.reported = some i ↔ IsLeast (Node.accepting nodes w) i := by
  have hset : {i | ∃ j, ReachedOn (Nfa.ofNodes nodes) w j ∧
      (Nfa.ofNodes nodes).domain? j = some i} = Node.accepting nodes w := by
    ext i
    exact (Nfa.mem_accepting_iff hc).symm
  rw [reported_run_iff (Nfa.inRange_ofNodes nodes) hd, hset]

end Subset

namespace Builder

theorem ofNodes_eq_ok {b : Builder} {nodes : List Node} {p : Program}
    (h : b.ofNodes nodes = .ok p) :
    (∀ n ∈ nodes, Nfa.Counted n) ∧ ∃ d,
      (Nfa.ofNodes nodes).determinize b.options.stateLimitInForce = .ok d ∧
        p = .ofDfa d b.options.accelerates := by
  obtain ⟨a, ha, h1⟩ := ok_of_bind h
  obtain ⟨rfl, -, hc⟩ := Nfa.build_eq_ok (ok_of_mapError ha)
  obtain ⟨d, hd, h2⟩ := ok_of_bind h1
  refine ⟨hc, d, ok_of_mapError hd, ?_⟩
  rw [ofDfa] at h2
  split at h2
  · split at h2
    · cases h2
    · exact (Except.ok.inj h2).symm
  · exact (Except.ok.inj h2).symm

theorem which_eq_some_iff {b : Builder} {nodes : List Node} {p : Program}
    (h : b.ofNodes nodes = .ok p) (text : String) (i : ℕ) :
    p.which text = some i ↔ IsLeast (Node.matching nodes text) i := by
  obtain ⟨hc, d, hd, rfl⟩ := ofNodes_eq_ok h
  rw [Program.which_ofDfa (Subset.inRange_of_determinize hd),
    Subset.reported_accepting_iff hc hd, Node.accepting_text]

/-- Of the patterns that match a text, the one given first is reported, and there is a report
whenever one matches. -/
theorem which_first {b : Builder} {nodes : List Node} {p : Program} (h : b.ofNodes nodes = .ok p)
    (text : String) :
    (∀ i, p.which text = some i ↔ IsLeast (Node.matching nodes text) i) ∧
      (p.which text = none ↔ ∀ n ∈ nodes, ¬ n.Matches text) ∧
      (p.isMatch text = true ↔ ∃ i, p.which text = some i) := by
  have hfirst := which_eq_some_iff h text
  refine ⟨hfirst, ⟨fun hnone n hn hm => ?_, fun hnone => ?_⟩, Option.isSome_iff_exists⟩
  · obtain ⟨i, hi⟩ := List.mem_iff_getElem?.1 hn
    have hmem : (Node.matching nodes text).Nonempty := ⟨i, n, hi, hm⟩
    have hleast := (hfirst _).2 ⟨Nat.sInf_mem hmem, fun _ hj => Nat.sInf_le hj⟩
    rw [hnone] at hleast
    cases hleast
  · cases hwhich : p.which text with
    | none => rfl
    | some i =>
      obtain ⟨⟨n, hn, hm⟩, -⟩ := (hfirst i).1 hwhich
      exact absurd hm (hnone n (List.mem_of_getElem? hn))

/-- Of three patterns, the last two of which match, the second is reported. -/
theorem which_first_of_three :
    ∃ p, new.ofNodes [.text ['b'], .repeated (.text ['a']) 1 none true, .text ['a']] = .ok p ∧
      p.which "a" = some 1 ∧
      IsLeast (Node.matching [.text ['b'], .repeated (.text ['a']) 1 none true, .text ['a']] "a")
        1 := by
  have hrun : (new.ofNodes [.text ['b'], .repeated (.text ['a']) 1 none true, .text ['a']]).map
      (fun p => p.which "a") = .ok (some 1) := by decide +kernel
  cases hp : new.ofNodes [.text ['b'], .repeated (.text ['a']) 1 none true, .text ['a']] with
  | error e =>
    rw [hp] at hrun
    cases hrun
  | ok p =>
    rw [hp] at hrun
    have hwhich : p.which "a" = some 1 := Except.ok.inj hrun
    exact ⟨p, rfl, hwhich, ((which_first hp "a").1 1).1 hwhich⟩

end Builder

end PatternAutomata
