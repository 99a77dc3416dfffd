import PatternAutomata.Proofs.Bounds.Ambiguity
import PatternAutomata.Proofs.Search
import PatternAutomata.Proofs.Subset
import PatternAutomata.Proofs.Which

/-!
Strict building. A builder that rejects ambiguous patterns fails just when some word over
characters and the end of input belongs to two of them, and the error names such a word. Every
ambiguous state that some input leads to is listed, once and in ascending order, with a shortest
input, whether the search keeps inputs or links.
-/

set_option autoImplicit false

/-! ### Strict building -/

namespace PatternAutomata

namespace Subset

/-- The domains of the state that a word leads to are the places of the patterns that accept it. -/
theorem mem_accepting_iff {nodes : List Node} {limit : Option ℕ} {d : Dfa}
    (hc : ∀ n ∈ nodes, Nfa.Counted n) (hd : (Nfa.ofNodes nodes).determinize limit = .ok d)
    {w : List ℤ} {i : ℕ} :
    i ∈ Node.accepting nodes w ↔
      ∃ q s, d.run? Dfa.start w = some q ∧ d.states[q]? = some s ∧ i ∈ s.domains := by
  obtain ⟨keys, hr⟩ := exists_keys hd
  rw [Nfa.mem_accepting_iff hc]
  rcases run_spec (Nfa.inRange_ofNodes nodes) hr w with ⟨hq, hnone⟩ | ⟨q, key, hq, hkey, hk, -⟩
  · rw [hq]
    constructor
    · rintro ⟨j, hj, -⟩
      exact absurd hj (hnone j)
    · rintro ⟨_, _, h, -⟩
      cases h
  · obtain ⟨s, hs, hdomains, -⟩ := hr.state q key hkey
    rw [hq, ← hk.mem_domainsOf, ← hdomains]
    constructor
    · intro hi
      exact ⟨q, s, rfl, hs, hi⟩
    · rintro ⟨_, s', ⟨⟩, hs', hi⟩
      cases hs.symm.trans hs'
      exact hi

end Subset

namespace Dfa

theorem State.isAmbiguous_iff {s : State} (h : s.domains.Pairwise (· < ·)) :
    s.isAmbiguous = true ↔ ∃ i j, i ≠ j ∧ i ∈ s.domains ∧ j ∈ s.domains := by
  rw [isAmbiguous, decide_eq_true_iff]
  constructor
  · intro hlt
    match hs : s.domains with
    | [] | [_] => simp [hs] at hlt
    | i :: j :: _ =>
      rw [hs] at h
      have hij : i < j := (List.pairwise_cons.1 h).1 j List.mem_cons_self
      exact ⟨i, j, hij.ne, by simp, by simp⟩
  · rintro ⟨i, j, hne, hi, hj⟩
    match hs : s.domains with
    | [] => simp [hs] at hi
    | [_] =>
      rw [hs, List.mem_singleton] at hi hj
      exact absurd (hi.trans hj.symm) hne
    | _ :: _ :: _ => simp

end Dfa

namespace Builder

section

variable {nodes : List Node} {limit : Option ℕ} {d : Dfa} (hc : ∀ n ∈ nodes, Nfa.Counted n)
  (hd : (Nfa.ofNodes nodes).determinize limit = .ok d)

include hc hd

theorem domains_of_mem_ambiguities {x : Dfa.Ambiguity} (hx : x ∈ d.ambiguities) :
    (∀ i, i ∈ x.domains ↔ i ∈ Node.accepting nodes (x.steps.map Dfa.Step.point)) ∧
      x.domains.Pairwise (· < ·) ∧ ∃ i j, i ≠ j ∧ i ∈ x.domains ∧ j ∈ x.domains := by
  obtain ⟨hq, -, s, hs, hambiguous, hdomains⟩ :=
    Dfa.mem_ambiguities (Subset.inRange_of_determinize hd) hx
  have hpairwise := Subset.pairwise_domains hd hs
  rw [hdomains]
  refine ⟨fun i => ?_, hpairwise, (Dfa.State.isAmbiguous_iff hpairwise).1 hambiguous⟩
  rw [Subset.mem_accepting_iff hc hd]
  constructor
  · intro hi
    exact ⟨x.state, s, hq, hs, hi⟩
  · rintro ⟨q, s', hq', hs', hi⟩
    cases hq'.symm.trans hq
    cases hs.symm.trans hs'
    exact hi

theorem ambiguities_ne_nil_iff : d.ambiguities ≠ [] ↔ ∃ i j w, i ≠ j ∧
    (∀ p ∈ w, Node.Feedable p) ∧ i ∈ Node.accepting nodes w ∧ j ∈ Node.accepting nodes w := by
  constructor
  · intro hne
    obtain ⟨x, hx⟩ := List.exists_mem_of_ne_nil _ hne
    obtain ⟨hmem, -, i, j, hij, hi, hj⟩ := domains_of_mem_ambiguities hc hd hx
    refine ⟨i, j, x.steps.map Dfa.Step.point, hij, fun p hp => ?_, (hmem i).1 hi, (hmem j).1 hj⟩
    obtain ⟨st, -, rfl⟩ := List.mem_map.1 hp
    exact st.feedable
  · rintro ⟨i, j, w, hij, hw, hi, hj⟩
    obtain ⟨steps, rfl⟩ := Dfa.exists_steps hw
    obtain ⟨q, s, hq, hs, hi⟩ := (Subset.mem_accepting_iff hc hd).1 hi
    obtain ⟨q', s', hq', hs', hj⟩ := (Subset.mem_accepting_iff hc hd).1 hj
    cases hq.symm.trans hq'
    cases hs.symm.trans hs'
    have hambiguous := (Dfa.State.isAmbiguous_iff (Subset.pairwise_domains hd hs)).2
      ⟨i, j, hij, hi, hj⟩
    obtain ⟨x, hx, -⟩ :=
      Dfa.exists_mem_ambiguities (Subset.inRange_of_determinize hd) hq hs hambiguous
    exact List.ne_nil_of_mem hx

end

theorem ofNodes_eq_ofDfa {b : Builder} {nodes : List Node} {a : Nfa} {d : Dfa}
    (ha : Nfa.build b.limits nodes = .ok a)
    (hd : a.determinize b.options.stateLimitInForce = .ok d) : b.ofNodes nodes = b.ofDfa d := by
  rw [ofNodes, ha]
  change ((a.determinize b.options.stateLimitInForce).mapError .dfa >>= b.ofDfa) = _
  rw [hd]
  rfl

/-- A builder that rejects ambiguous patterns fails just when some word belongs to two of them. If
it does not, no text is matched by two patterns; if it does, the steps that it names are such a word
and the patterns that it names are all to which that word belongs. -/
theorem ofNodes_ambiguous_iff {b : Builder} (hstrict : b.options.rejectsAmbiguous = true)
    {nodes : List Node} {a : Nfa} {d : Dfa} (ha : Nfa.build b.limits nodes = .ok a)
    (hd : a.determinize b.options.stateLimitInForce = .ok d) :
    ((∃ x, b.ofNodes nodes = .error (.ambiguous x)) ↔ ∃ i j w, i ≠ j ∧
      (∀ p ∈ w, Node.Feedable p) ∧ i ∈ Node.accepting nodes w ∧ j ∈ Node.accepting nodes w) ∧
    ((∀ x, b.ofNodes nodes ≠ .error (.ambiguous x)) → ∃ p, b.ofNodes nodes = .ok p) ∧
    (∀ p, b.ofNodes nodes = .ok p → ∀ text i j, i ∈ Node.matching nodes text →
      j ∈ Node.matching nodes text → i = j) ∧
    ∀ x, b.ofNodes nodes = .error (.ambiguous x) →
      (∀ p ∈ x.steps.map Dfa.Step.point, Node.Feedable p) ∧
      (∀ i, i ∈ x.domains ↔ i ∈ Node.accepting nodes (x.steps.map Dfa.Step.point)) ∧
      x.domains.Pairwise (· < ·) ∧ ∃ i j, i ≠ j ∧ i ∈ x.domains ∧ j ∈ x.domains := by
  obtain ⟨rfl, -, hc⟩ := Nfa.build_eq_ok ha
  have hiff := ambiguities_ne_nil_iff hc hd
  have hresult := ofNodes_eq_ofDfa ha hd
  rw [ofDfa, if_pos hstrict] at hresult
  cases hx : d.ambiguities with
  | nil =>
    rw [hx] at hresult hiff
    have hnone : ¬ ∃ i j w, i ≠ j ∧ (∀ p ∈ w, Node.Feedable p) ∧
        i ∈ Node.accepting nodes w ∧ j ∈ Node.accepting nodes w := fun h => hiff.2 h rfl
    rw [hresult]
    refine ⟨⟨fun h => (by obtain ⟨x, h⟩ := h; cases h), fun h => absurd h hnone⟩,
      fun _ => ⟨_, rfl⟩, fun p _ text i j hi hj => ?_, fun x h => by cases h⟩
    by_contra hij
    rw [← Node.accepting_text] at hi hj
    refine hnone ⟨i, j, _, hij, fun p hp => ?_, hi, hj⟩
    rcases List.mem_append.1 hp with hp | hp
    · obtain ⟨c, -, rfl⟩ := List.mem_map.1 hp
      exact (Dfa.Step.char c).feedable
    · rw [List.mem_singleton.1 hp]
      exact Dfa.Step.endOfInput.feedable
  | cons x rest =>
    rw [hx] at hresult hiff
    obtain ⟨h1, h2, h3⟩ := domains_of_mem_ambiguities hc hd (hx ▸ List.mem_cons_self)
    rw [hresult]
    refine ⟨⟨fun _ => hiff.1 (List.cons_ne_nil _ _), fun _ => ⟨x, rfl⟩⟩,
      fun h => absurd rfl (h x), fun p h => (by cases h), fun y h => ?_⟩
    cases h
    refine ⟨fun p hp => ?_, h1, h2, h3⟩
    obtain ⟨st, -, rfl⟩ := List.mem_map.1 hp
    exact st.feedable

/-- A letter and a letter at the end of input share the word in which an end follows the letter. -/
theorem ofNodes_ambiguous_at_end :
    ∃ d, (Nfa.ofNodes [.text ['a'], .concat [.text ['a'], .endOfInput]]).determinize (some 9) =
        .ok d ∧
      ∃ x, (new.configure (.options ⟨some (some 9), some true, none⟩)).ofNodes
          [.text ['a'], .concat [.text ['a'], .endOfInput]] = .error (.ambiguous x) ∧
        x.steps = [.char 'a', .endOfInput] ∧
        1 ∈ Node.accepting [.text ['a'], .concat [.text ['a'], .endOfInput]]
          (x.steps.map Dfa.Step.point) := by
  have hb : Nfa.build .unset [.text ['a'], .concat [.text ['a'], .endOfInput]] =
      .ok (Nfa.ofNodes _) := rfl
  have hrun : (new.configure (.options ⟨some (some 9), some true, none⟩)).ofNodes
      [.text ['a'], .concat [.text ['a'], .endOfInput]] =
        .error (.ambiguous ⟨2, [0, 1], [.char 'a', .endOfInput]⟩) := by
    decide +kernel
  have hmade : ((Nfa.ofNodes [.text ['a'], .concat [.text ['a'], .endOfInput]]).determinize
      (some 9)).toBool = true := by
    decide +kernel
  cases hd : (Nfa.ofNodes [.text ['a'], .concat [.text ['a'], .endOfInput]]).determinize
      (some 9) with
  | error e =>
    rw [hd] at hmade
    cases hmade
  | ok d =>
    obtain ⟨-, -, -, hfound⟩ := ofNodes_ambiguous_iff
      (b := new.configure (.options ⟨some (some 9), some true, none⟩)) rfl hb hd
    obtain ⟨-, hmem, -⟩ := hfound _ hrun
    exact ⟨d, rfl, _, hrun, rfl, (hmem 1).1 (by decide)⟩

end Builder

end PatternAutomata

/-! ### Shortest inputs -/

namespace PatternAutomata.Dfa

theorem Ambiguity.state_of_ofState? {d : Dfa} {s : Search} {id : ℕ} {x : Ambiguity}
    (h : ofState? d s id = some x) : x.state = id := by
  unfold ofState? at h
  split at h
  case h_1 =>
    split at h
    case isTrue =>
      cases h
      rfl
    case isFalse => cases h
  case h_2 => cases h

theorem pairwise_ambiguities (d : Dfa) :
    (d.ambiguities.map Ambiguity.state).Pairwise (· < ·) := by
  rw [ambiguities, List.pairwise_map, List.pairwise_filterMap]
  refine List.pairwise_lt_range.imp fun {i j} hlt x hx y hy => ?_
  rw [Ambiguity.state_of_ofState? hx, Ambiguity.state_of_ofState? hy]
  exact hlt

/-- The ambiguities are the states in which several patterns accept and to which some word leads
that a matcher can be given, in ascending order. The steps of each are such a word, and a shortest
one. The search ends because it has nothing left to search from; and searched with links in place
of inputs, they are put together from as many links as they have steps. -/
theorem ambiguities_exact {a : Nfa} {limit : Option ℕ} {d : Dfa}
    (h : a.determinize limit = .ok d) :
    (d.ambiguities.map Ambiguity.state).Pairwise (· < ·) ∧
    (∀ q, q ∈ d.ambiguities.map Ambiguity.state ↔
      ∃ s w, d.states[q]? = some s ∧ 1 < s.domains.length ∧ (∀ p ∈ w, Node.Feedable p) ∧
        d.run? start w = some q) ∧
    (∀ x ∈ d.ambiguities,
      d.run? start (x.steps.map Step.point) = some x.state ∧
      (∀ w, (∀ p ∈ w, Node.Feedable p) → d.run? start w = some x.state →
        x.steps.length ≤ w.length) ∧
      (∃ s, d.states[x.state]? = some s ∧ x.domains = s.domains) ∧
      x.sample.toList = x.steps.filterMap Step.char? ∧ x.steps.length < d.size) ∧
    (Ambiguity.search d).found = [] ∧ d.checkedAmbiguities = .ok d.ambiguities := by
  have hd := Subset.inRange_of_determinize h
  refine ⟨pairwise_ambiguities d, fun q => ⟨fun hq => ?_, ?_⟩, fun x hx => ?_, ?_,
    checkedAmbiguities_eq hd⟩
  · obtain ⟨x, hx, rfl⟩ := List.mem_map.1 hq
    obtain ⟨htarget, -, s, hs, hambiguous, -⟩ := mem_ambiguities hd hx
    refine ⟨s, x.steps.map Step.point, hs, of_decide_eq_true hambiguous, fun p hp => ?_, htarget⟩
    obtain ⟨st, -, rfl⟩ := List.mem_map.1 hp
    exact st.feedable
  · rintro ⟨s, w, hs, hambiguous, hw, hrun⟩
    obtain ⟨steps, rfl⟩ := exists_steps hw
    obtain ⟨x, hx, rfl⟩ := exists_mem_ambiguities hd hrun hs (decide_eq_true hambiguous)
    exact List.mem_map_of_mem hx
  · obtain ⟨htarget, hshortest, s, hs, -, hdomains⟩ := mem_ambiguities hd hx
    refine ⟨htarget, fun w hw hrun => ?_, ⟨s, hs, hdomains⟩, String.toList_ofList, ?_⟩
    · obtain ⟨steps, rfl⟩ := exists_steps hw
      rw [List.length_map]
      exact hshortest steps hrun
    · exact Ambiguity.length_lt_size hd htarget hshortest
  · obtain ⟨_, -, hfound⟩ := Ambiguity.level_search hd
    exact hfound

/-- Once round the cycle that both patterns share, and then the end of input: no word with fewer
points leads to the last state. -/
theorem ambiguities_exact_cycle :
    ∃ d, (Nfa.ofNodes [.zeroOrMore (.group (.index 1) (.text ['a', 'b'])),
        .oneOrMore (.text ['a', 'b'])]).determinize (some 9) = .ok d ∧
      ∃ x ∈ d.ambiguities, x.sample = "ab" ∧
        ∀ w, (∀ p ∈ w, Node.Feedable p) → d.run? start w = some x.state → 3 ≤ w.length := by
  have hrun : ((Nfa.ofNodes [.zeroOrMore (.group (.index 1) (.text ['a', 'b'])),
      .oneOrMore (.text ['a', 'b'])]).determinize (some 9)).map
        (fun d => d.ambiguities[1]?.map fun x => (x.steps, x.sample)) =
      .ok (some ([.char 'a', .char 'b', .endOfInput], "ab")) := by
    decide +kernel
  cases hd : (Nfa.ofNodes [.zeroOrMore (.group (.index 1) (.text ['a', 'b'])),
      .oneOrMore (.text ['a', 'b'])]).determinize (some 9) with
  | error e =>
    rw [hd] at hrun
    cases hrun
  | ok d =>
    rw [hd] at hrun
    obtain ⟨x, hx, hentry⟩ := Option.map_eq_some_iff.1 (Except.ok.inj hrun)
    obtain ⟨hsteps, hsample⟩ := Prod.mk.inj hentry
    have hmem := List.mem_of_getElem? hx
    obtain ⟨-, -, hentries, -⟩ := ambiguities_exact hd
    refine ⟨d, rfl, x, hmem, hsample, fun w hw hrun => ?_⟩
    have hshortest := (hentries x hmem).2.1 w hw hrun
    rwa [hsteps] at hshortest

end PatternAutomata.Dfa
