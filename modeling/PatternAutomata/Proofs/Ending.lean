import PatternAutomata.Proofs.History
import PatternAutomata.Proofs.Which
import Mathlib.Logic.Function.Iterate

/-!
Ending never loses a match. An accepting state of the first automaton loops on the end of input, so
a terminal state of the second has a transition on it to a state with all of its domains. A matcher
that is ended in a terminal state hence stays in terminal ones, whose first pattern is never later.
-/

set_option autoImplicit false

namespace PatternAutomata

theorem Nfa.loop_of_domain? {nodes : List Node} {id i : ℕ}
    (h : (ofNodes nodes).domain? id = some i) :
    .consuming .endOfInput false id ∈ (ofNodes nodes).transitions id := by
  obtain ⟨n, b, hp, rfl⟩ := placed_of_domain? h
  rw [transitions_of_getElem? hp.block.accept]
  exact List.mem_singleton_self _

namespace Subset

theorem mem_offered_of_domain? {nodes : List Node} {key : List ℕ} {i j : ℕ} (hj : j ∈ key)
    (hi : (Nfa.ofNodes nodes).domain? j = some i) :
    ⟨.endOfInput, j, false⟩ ∈ offered (outgoing (Nfa.ofNodes nodes) key) Point.endOfInput := by
  refine List.mem_filter.2 ⟨mem_outgoing.2 ?_, (PointSet.contains_endOfInput _).2 rfl⟩
  exact ⟨j, hj, _, Nfa.loop_of_domain? hi, .endOfInput, rfl, rfl⟩

/-- At the end of input a terminal state leads to one with all of its domains. -/
theorem exists_transition_endOfInput {nodes : List Node} {limit : Option ℕ} {d : Dfa}
    (hd : (Nfa.ofNodes nodes).determinize limit = .ok d) {q : ℕ} {s : Dfa.State}
    (hs : d.states[q]? = some s) (hterminal : s.isTerminal = true) :
    ∃ t s', s.transitions.get? Point.endOfInput = some t ∧ d.states[t.target]? = some s' ∧
      s.domains ⊆ s'.domains := by
  obtain ⟨keys, hr⟩ := exists_keys hd
  have hq : q < keys.size := hr.size ▸ (Array.getElem?_eq_some_iff.1 hs).1
  have hkey := Array.getElem?_eq_getElem hq
  obtain ⟨_, hs', hdomains, htransitions⟩ := hr.state q _ hkey
  obtain rfl := Option.some.inj (hs.symm.trans hs')
  have hrange := Nfa.inRange_ofNodes nodes
  have hne : s.domains ≠ [] := by
    rw [Dfa.State.isTerminal, Bool.not_eq_true', List.isEmpty_eq_false_iff] at hterminal
    exact hterminal
  obtain ⟨i, hi⟩ := List.exists_mem_of_ne_nil _ hne
  rw [hdomains] at hi
  obtain ⟨j, hj, hij⟩ := mem_domainsOf.1 hi
  have hoffered := List.ne_nil_of_mem (mem_offered_of_domain? hj hij)
  obtain ⟨t, ht, -, key', hkey', hleads⟩ :=
    htransitions.present _ Point.inDomain_endOfInput hoffered
  obtain ⟨s', hs', hdomains', -⟩ := hr.state t.target key' hkey'
  refine ⟨t, s', ht, hs', fun i hi => ?_⟩
  rw [hdomains] at hi
  obtain ⟨j, hj, hij⟩ := mem_domainsOf.1 hi
  have hkeeps := hleads.isKey hrange fun o ho => by
    obtain ⟨_, -, u, hu, _, -, rfl⟩ := mem_outgoing.1 (List.mem_of_mem_filter ho)
    exact hrange.target _ u hu
  rw [hdomains', mem_domainsOf]
  have hloop := mem_offered_of_domain? hj hij
  exact ⟨j, (hkeeps.mem j).2 ⟨significant_of_domain hij, _, hloop, .refl j⟩, hij⟩

end Subset

namespace Matcher

def Accepts (d : Dfa) (i : ℕ) (m : Matcher) : Prop :=
  ∃ w q j, Located d w q m.domain ∧ m.state = some (d.rank q) ∧ d.reported q = some j ∧ j ≤ i

theorem Accepts.isValid {d : Dfa} {i : ℕ} {m : Matcher} (h : Accepts d i m) :
    m.isValid = true := by
  obtain ⟨w, q, j, -, hstate, -⟩ := h
  rw [Matcher.isValid, hstate, Option.isSome_some]

section

variable {nodes : List Node} {limit : Option ℕ} {d : Dfa}
  (hd : (Nfa.ofNodes nodes).determinize limit = .ok d) (accelerate : Bool) {i : ℕ} {m : Matcher}

include hd

theorem Accepts.finish (h : Accepts d i m) :
    Accepts d i (m.finish (.ofDfa d accelerate)) ∧
      ∃ j ≤ i, (m.finish (.ofDfa d accelerate)).domain = some j := by
  obtain ⟨w, q, j, hloc, hstate, hj, hle⟩ := h
  obtain ⟨s, hs, hdomain⟩ := Option.bind_eq_some_iff.1 hj
  have hterminal : s.isTerminal = true := by
    rw [Dfa.isTerminal_iff, hdomain, Option.isSome_some]
  obtain ⟨t, s', ht, hs', hsubset⟩ := Subset.exists_transition_endOfInput hd hs hterminal
  rw [← Dfa.transition?_eq hs] at ht
  -- The first pattern is still among those of the next state, and so not before its first.
  have hmem : j ∈ s'.domains := hsubset (List.mem_of_head? hdomain)
  obtain ⟨j', hj'⟩ : ∃ j', s'.domain? = some j' :=
    Option.isSome_iff_exists.1 (List.isSome_head?.2 (List.ne_nil_of_mem hmem))
  have hleast := (Ascending.head?_eq_some_iff (Subset.pairwise_domains hd hs')).1 hj'
  have hle' : j' ≤ i := (hleast.2 hmem).trans hle
  have hreported : d.reported t.target = some j' := (Dfa.reported_eq hs').trans hj'
  rcases finish_spec (Subset.inRange_of_determinize hd) accelerate hloc hstate with
    ⟨q', hloc', hstate'⟩ | ⟨hnone, -⟩
  · obtain rfl : t.target = q' := by
      have hrun := hloc'.run
      rw [hloc.run?_append, ht] at hrun
      exact Option.some.inj hrun
    refine ⟨⟨_, _, j', hloc', hstate', hreported, hle'⟩, j', hle', ?_⟩
    have hne : w ++ [Point.endOfInput] ≠ [] := by simp
    rw [hloc'.domain, if_neg hne, hreported]
  · rw [ht] at hnone
    cases hnone

theorem Accepts.iterate (h : Accepts d i m) (k : ℕ) :
    Accepts d i ((Matcher.finish (.ofDfa d accelerate))^[k] m) := by
  induction k with
  | zero => exact h
  | succ k ih =>
    rw [Function.iterate_succ_apply']
    exact (ih.finish hd accelerate).1

end

end Matcher

namespace Builder

/-- Ending never loses a match. In the automaton of some patterns a terminal state has a transition
on the end of input, to a state with all of its domains. So a matcher that has come to a state in
which a pattern is accepted is valid after any number of ends of input, and reports that pattern or
an earlier one. -/
theorem finish_keeps_match {b : Builder} {nodes : List Node} {p : Program}
    (h : b.ofNodes nodes = .ok p) :
    ∃ (a : Nfa) (d : Dfa), Nfa.build b.limits nodes = .ok a ∧
      a.determinize b.options.stateLimitInForce = .ok d ∧ p = .ofDfa d b.options.accelerates ∧
      (∀ (q : ℕ) (s : Dfa.State), d.states[q]? = some s → s.isTerminal = true → ∃ t s',
        s.transitions.get? Point.endOfInput = some t ∧ d.states[t.target]? = some s' ∧
          s.domains ⊆ s'.domains) ∧
      (∀ (q : ℕ) (s : Dfa.State), d.states[q]? = some s → ∃ code, p.states[d.rank q]? = some code ∧
        ∀ i, code.domain = some i ↔ IsLeast {j | j ∈ s.domains} i) ∧
      ∀ calls m x id (code : StateCode) i, (Session.initial.run p calls).get? m = some x →
        x.state = some id → p.states[id]? = some code → code.domain = some i →
        ∀ k, ((Matcher.finish p)^[k + 1] x).isValid = true ∧
          ∃ j ≤ i, ((Matcher.finish p)^[k + 1] x).domain = some j := by
  obtain ⟨a, ha, -⟩ := ok_of_bind h
  have hbuild := ok_of_mapError ha
  obtain ⟨rfl, -, -⟩ := Nfa.build_eq_ok hbuild
  obtain ⟨-, d, hd, rfl⟩ := ofNodes_eq_ok h
  have hcode : ∀ (q : ℕ) (s : Dfa.State), d.states[q]? = some s → ∃ code,
      (Program.ofDfa d b.options.accelerates).states[d.rank q]? = some code ∧
        code.domain = s.domain? := by
    intro q s hs
    exact ⟨_, Dfa.getElem?_ofDfa b.options.accelerates hs, rfl⟩
  refine ⟨_, d, hbuild, hd, rfl, fun q s hs hterminal => ?_, fun q s hs => ?_,
    fun calls m x id code i hx hid hstate hi k => ?_⟩
  · exact Subset.exists_transition_endOfInput hd hs hterminal
  · obtain ⟨code, hstate, hdomain⟩ := hcode q s hs
    refine ⟨code, hstate, fun i => ?_⟩
    rw [hdomain]
    exact Ascending.head?_eq_some_iff (Subset.pairwise_domains hd hs)
  · have hrange := Subset.inRange_of_determinize hd
    have hagree := Session.agree_track hrange b.options.accelerates calls
    rw [← Session.track_fst d] at hx
    obtain ⟨r, hr⟩ : ∃ r, (Session.track d (.ofDfa d b.options.accelerates) calls).2[m]? = some r :=
      ⟨_, List.getElem?_eq_getElem (hagree.length ▸ (List.getElem?_eq_some_iff.1 hx).1)⟩
    obtain ⟨q, hloc, hfollows⟩ := hagree.follows m x r hx hr
    have haccepts : Matcher.Accepts d i x := by
      rw [hid] at hfollows
      split at hfollows
      · cases hfollows
      · obtain rfl := Option.some.inj hfollows
        have hs := Array.getElem?_eq_getElem hloc.lt
        obtain ⟨code', hstate', hdomain⟩ := hcode q _ hs
        obtain rfl := Option.some.inj (hstate.symm.trans hstate')
        exact ⟨_, q, i, hloc, hid, by rw [Dfa.reported_eq hs, ← hdomain, hi], le_rfl⟩
    have hended := (haccepts.iterate hd b.options.accelerates k).finish hd b.options.accelerates
    rw [Function.iterate_succ_apply']
    exact ⟨hended.1.isValid, hended.2⟩

/-- After its letter the second pattern is reported, and after ends of input the first, which needs
one. -/
theorem finish_keeps_match_letter :
    ∃ p x, new.ofNodes [.concat [.text ['a'], .endOfInput], .text ['a']] = .ok p ∧
      (Session.initial.run p [.feed 0 "a" 0 1 false]).get? 0 = some x ∧ x.domain = some 1 ∧
      ((Matcher.finish p)^[3] x).isValid = true ∧
      ∃ j ≤ 1, ((Matcher.finish p)^[3] x).domain = some j := by
  have hrun : (new.ofNodes [.concat [.text ['a'], .endOfInput], .text ['a']]).toOption.map
      (fun p => ((Session.initial.run p [.feed 0 "a" 0 1 false]).get? 0,
        p.states[1]?.map (·.domain))) = some (some ⟨some 1, some 1, 1⟩, some (some 1)) := by
    decide +kernel
  obtain ⟨p, hp, hrun⟩ := Option.map_eq_some_iff.1 hrun
  obtain ⟨hx, hstate⟩ := Prod.mk.inj hrun
  obtain ⟨code, hcode, hdomain⟩ := Option.map_eq_some_iff.1 hstate
  obtain ⟨a, d, -, -, -, -, -, hkeeps⟩ := finish_keeps_match (ok_of_toOption hp)
  exact ⟨p, _, ok_of_toOption hp, hx, rfl, hkeeps _ 0 _ 1 code 1 hx rfl hcode hdomain 2⟩

end Builder

end PatternAutomata
