import PatternAutomata.Proofs.Patterns
import PatternAutomata.Proofs.Reached
import PatternAutomata.Proofs.Subset

/-!
Subset construction is a simulation: the state that a word leads to stands for the significant ones
among the states that the word leads to in the other automaton.
-/

set_option autoImplicit false

namespace PatternAutomata.Subset

open Nfa (InRange ReachedOn)
open SparseSet (Closed Reaches)

/-- A list that has just the significant states of a set, in ascending order. -/
structure IsKey (a : Nfa) (reached : ℕ → Prop) (key : List ℕ) : Prop where
  ascending : key.Pairwise (· < ·)
  mem : ∀ j, j ∈ key ↔ significant a j = true ∧ reached j

theorem isKey_keyOf {a : Nfa} {s : SparseSet} (hs : s.WellFormed) {reached : ℕ → Prop}
    (h : ∀ j, s.contains j = true ↔ reached j) : IsKey a reached (keyOf a s) where
  ascending := Ascending.pairwise_ofList _
  mem j := by
    rw [keyOf, Ascending.mem_ofList, List.mem_filter, hs.mem_toList, h, and_comm]

section

variable {a : Nfa} (ha : InRange a)

include ha

theorem silentTargets_lt : ∀ i, ∀ j ∈ a.silentTargets i, j < a.size := by
  intro i j hj
  obtain ⟨t, ht, -, rfl⟩ := Nfa.mem_silentTargets.1 hj
  exact ha.target i t ht

theorem contains_closure {s : SparseSet} (hs : s.WellFormed) (hc : s.capacity = a.size)
    (hcl : Closed a.silentTargets s) {i : ℕ} (hi : i < a.size) {j : ℕ} :
    (closure a i s).contains j = true ↔ s.contains j = true ∨ Reaches a.silentTargets i j :=
  SparseSet.contains_explore hs (hc ▸ silentTargets_lt ha) (hc ▸ hi) hcl

theorem contains_foldl_closure {os : List Outgoing} (ho : ∀ o ∈ os, o.target < a.size)
    {s : SparseSet} (hs : s.WellFormed) (hc : s.capacity = a.size)
    (hcl : Closed a.silentTargets s) {j : ℕ} :
    (os.foldl (fun s o => closure a o.target s) s).contains j = true ↔
      s.contains j = true ∨ ∃ o ∈ os, Reaches a.silentTargets o.target j := by
  induction os generalizing s with
  | nil => simp
  | cons o os ih =>
    obtain ⟨h1, h2⟩ := closure_wellFormed (a := a) o.target hs
    have hi : o.target < s.capacity := hc ▸ ho o List.mem_cons_self
    have h3 : Closed a.silentTargets (closure a o.target s) :=
      SparseSet.explore_closed hs (hc ▸ silentTargets_lt ha) hi hcl
    rw [List.foldl_cons, ih (fun o h => ho o (List.mem_cons_of_mem _ h)) h1 (h2.trans hc) h3,
      contains_closure ha hs hc hcl (hc ▸ hi), or_assoc, List.exists_mem_cons_iff]

theorem Leads.isKey {os : List Outgoing} {key : List ℕ} (h : Leads a os key)
    (ho : ∀ o ∈ os, o.target < a.size) :
    IsKey a (fun j => ∃ o ∈ os, Reaches a.silentTargets o.target j) key := by
  obtain ⟨scratch, hs, hc, rfl⟩ := h
  refine isKey_keyOf (reached_wellFormed os hs).1 fun j => ?_
  have hnone : ∀ i, ¬ scratch.clear.contains i = true := by
    intro i
    rw [SparseSet.contains_clear]
    exact Bool.false_ne_true
  rw [reached, contains_foldl_closure ha ho hs.clear hc fun i hi => absurd hi (hnone i)]
  exact or_iff_right (hnone j)

theorem isKey_start :
    IsKey a (ReachedOn a []) (keyOf a (closure a Nfa.start (.ofCapacity a.size))) := by
  have hs := SparseSet.wellFormed_ofCapacity a.size
  have hc := SparseSet.capacity_ofCapacity a.size
  have hnone : ∀ i, ¬ (SparseSet.ofCapacity a.size).contains i = true := by
    intro i
    rw [SparseSet.contains_ofCapacity]
    exact Bool.false_ne_true
  refine isKey_keyOf (closure_wellFormed _ hs).1 fun j => ?_
  rw [contains_closure ha hs hc (fun i hi => absurd hi (hnone i)) ha.start, Nfa.reachedOn_nil]
  exact or_iff_right (hnone j)

end

theorem mem_outgoing {a : Nfa} {key : List ℕ} {o : Outgoing} :
    o ∈ outgoing a key ↔ ∃ i ∈ key, ∃ t ∈ a.transitions i, ∃ s, t.points = some s ∧
      ⟨s, t.target, t.reluctant⟩ = o := by
  simp only [outgoing, List.mem_flatMap, List.mem_filterMap, Option.map_eq_some_iff]

theorem mem_domainsOf {a : Nfa} {key : List ℕ} {i : ℕ} :
    i ∈ domainsOf a key ↔ ∃ j ∈ key, a.domain? j = some i := by
  rw [domainsOf, Ascending.mem_ofList, List.mem_filterMap]

theorem significant_of_consumes {a : Nfa} {i : ℕ} {t : Nfa.Transition} {p : ℤ}
    (ht : t ∈ a.transitions i) (hp : t.Consumes p) : significant a i = true := by
  obtain ⟨s, hs, hp⟩ := hp
  have hne : s.isEmpty = false := by
    rw [PointSet.contains] at hp
    obtain ⟨r, hr, -⟩ := List.any_eq_true.1 hp
    rw [PointSet.isEmpty, List.isEmpty_eq_false_iff]
    exact List.ne_nil_of_mem hr
  rw [Nfa.transitions] at ht
  rw [significant]
  cases hstate : a.states[i]? with
  | none =>
    rw [hstate] at ht
    cases ht
  | some state =>
    rw [hstate] at ht
    change isSignificant state = true
    rw [isSignificant, Bool.or_eq_true, List.any_eq_true]
    refine .inr ⟨t, ht, ?_⟩
    rw [hs]
    change (!s.isEmpty) = true
    rw [hne, Bool.not_false]

theorem significant_of_domain {a : Nfa} {i p : ℕ} (h : a.domain? i = some p) :
    significant a i = true := by
  obtain ⟨s, hs, hd⟩ := Option.bind_eq_some_iff.1 h
  simp only [significant, hs, isSignificant, Nfa.State.isAccepting, hd, Option.isSome_some,
    Bool.true_or]

section

variable {a : Nfa} {w : List ℤ} {key : List ℕ} (hk : IsKey a (ReachedOn a w) key)

include hk

theorem IsKey.mem_offered {p : ℤ} {o : Outgoing} :
    o ∈ offered (outgoing a key) p ↔ ∃ i, ReachedOn a w i ∧ ∃ t ∈ a.transitions i, ∃ s,
      t.points = some s ∧ s.contains p = true ∧ ⟨s, t.target, t.reluctant⟩ = o := by
  rw [offered, List.mem_filter, mem_outgoing]
  constructor
  · rintro ⟨⟨i, hi, t, ht, s, hs, rfl⟩, hp⟩
    exact ⟨i, ((hk.mem i).1 hi).2, t, ht, s, hs, hp, rfl⟩
  · rintro ⟨i, hi, t, ht, s, hs, hp, rfl⟩
    exact ⟨⟨i, (hk.mem i).2 ⟨significant_of_consumes ht ⟨s, hs, hp⟩, hi⟩, t, ht, s, hs, rfl⟩, hp⟩

theorem IsKey.reachedOn_append {p : ℤ} {j : ℕ} :
    ReachedOn a (w ++ [p]) j ↔
      ∃ o ∈ offered (outgoing a key) p, Reaches a.silentTargets o.target j := by
  rw [Nfa.reachedOn_append_singleton]
  constructor
  · rintro ⟨i, hi, t, ht, ⟨s, hs, hp⟩, hr⟩
    exact ⟨_, hk.mem_offered.2 ⟨i, hi, t, ht, s, hs, hp, rfl⟩, hr⟩
  · rintro ⟨_, ho, hr⟩
    obtain ⟨i, hi, t, ht, s, hs, hp, rfl⟩ := hk.mem_offered.1 ho
    exact ⟨i, hi, t, ht, ⟨s, hs, hp⟩, hr⟩

theorem IsKey.mem_domainsOf {i : ℕ} :
    i ∈ domainsOf a key ↔ ∃ j, ReachedOn a w j ∧ a.domain? j = some i := by
  rw [Subset.mem_domainsOf]
  constructor
  · rintro ⟨j, hj, hd⟩
    exact ⟨j, ((hk.mem j).1 hj).2, hd⟩
  · rintro ⟨j, hj, hd⟩
    exact ⟨j, (hk.mem j).2 ⟨significant_of_domain hd, hj⟩, hd⟩

theorem IsKey.all_reluctant {p : ℤ} :
    (offered (outgoing a key) p).all (·.reluctant) = true ↔
      ∀ j t, ReachedOn a w j → t ∈ a.transitions j → t.Consumes p → t.reluctant = true := by
  rw [List.all_eq_true]
  constructor
  · rintro h j t hj ht ⟨s, hs, hp⟩
    exact h _ (hk.mem_offered.2 ⟨j, hj, t, ht, s, hs, hp, rfl⟩)
  · intro h o ho
    obtain ⟨j, hj, t, ht, s, hs, hp, rfl⟩ := hk.mem_offered.1 ho
    exact h j t hj ht ⟨s, hs, hp⟩

end

section

variable {a : Nfa} {w : List ℤ} {key : List ℕ} {p : ℤ} (hk : IsKey a (ReachedOn a w) key)

include hk

/-- What the transitions that are offered lead to is what the word and the point lead to. -/
theorem IsKey.next (ha : InRange a) {key' : List ℕ}
    (hl : Leads a (offered (outgoing a key) p) key') : IsKey a (ReachedOn a (w ++ [p])) key' := by
  have hrange : ∀ o ∈ offered (outgoing a key) p, o.target < a.size := by
    intro o hm
    obtain ⟨i, -, t, ht, s, -, -, rfl⟩ := hk.mem_offered.1 hm
    exact ha.target i t ht
  obtain ⟨h1, h2⟩ := hl.isKey ha hrange
  refine ⟨h1, fun j => ?_⟩
  rw [hk.reachedOn_append, h2]

theorem IsKey.exists_reachedOn (ho : offered (outgoing a key) p ≠ []) :
    ∃ j, ReachedOn a (w ++ [p]) j := by
  obtain ⟨o, hm⟩ := List.exists_mem_of_ne_nil _ ho
  exact ⟨o.target, hk.reachedOn_append.2 ⟨o, hm, .refl _⟩⟩

end

theorem run_spec {a : Nfa} {d : Dfa} {keys : Array (List ℕ)} (ha : InRange a)
    (hd : Represents a d keys) (w : List ℤ) :
    (d.run? Dfa.start w = none ∧ ∀ j, ¬ ReachedOn a w j) ∨
      ∃ q key, d.run? Dfa.start w = some q ∧ keys[q]? = some key ∧
        IsKey a (ReachedOn a w) key ∧ ∃ j, ReachedOn a w j := by
  induction w using List.reverseRecOn with
  | nil => exact .inr ⟨_, _, rfl, hd.start, isKey_start ha, _, Nfa.reachedOn_start⟩
  | append_singleton w p ih =>
    rw [Dfa.run?_append]
    rcases ih with ⟨hq, hnone⟩ | ⟨q, key, hq, hkey, hk, -⟩
    · left
      rw [hq]
      refine ⟨rfl, fun j hj => ?_⟩
      obtain ⟨i, hi, -⟩ := Nfa.reachedOn_append_singleton.1 hj
      exact hnone i hi
    · rw [hq, Option.bind_some, Dfa.run?_singleton, Dfa.next?]
      by_cases hp : Point.InDomain p
      · rcases hd.transition? hkey hp with ⟨ho, ht⟩ | ⟨ho, t, ht, -, key', hkey', hl⟩
        · left
          rw [ht]
          refine ⟨rfl, fun j hj => ?_⟩
          obtain ⟨o, hm, -⟩ := hk.reachedOn_append.1 hj
          rw [ho] at hm
          cases hm
        · right
          rw [ht]
          exact ⟨t.target, key', rfl, hkey', hk.next ha hl, hk.exists_reachedOn ho⟩
      · left
        rw [transition?_eq_none d q hp]
        refine ⟨rfl, fun j hj => ?_⟩
        obtain ⟨i, -, t, -, ⟨s, -, hs⟩, -⟩ := Nfa.reachedOn_append_singleton.1 hj
        exact hp (PointSet.inDomain_of_contains hs)

theorem Represents.exists_isKey {a : Nfa} {d : Dfa} {keys : Array (List ℕ)} (ha : InRange a)
    (hd : Represents a d keys) {w : List ℤ} {q : ℕ} (hq : d.run? Dfa.start w = some q) :
    ∃ key, keys[q]? = some key ∧ IsKey a (ReachedOn a w) key := by
  rcases run_spec ha hd w with ⟨hnone, -⟩ | ⟨r, key, hr, hkey, hk, -⟩
  · cases hnone.symm.trans hq
  · cases hr.symm.trans hq
    exact ⟨key, hkey, hk⟩

/-- Subset construction simulates the automaton that it starts from. -/
theorem determinize_simulates {limits : Nfa.Limits} {nodes : List Node} {a : Nfa}
    {limit : Option ℕ} {d : Dfa} (hb : Nfa.build limits nodes = .ok a)
    (hd : a.determinize limit = .ok d) (w : List ℤ) :
    ((d.run? Dfa.start w).isSome ↔ ∃ j, ReachedOn a w j) ∧
      ∀ q, d.run? Dfa.start w = some q → ∃ s, d.states[q]? = some s ∧
        s.domains.Pairwise (· < ·) ∧
        (∀ i, i ∈ s.domains ↔ ∃ j, ReachedOn a w j ∧ a.domain? j = some i) ∧
        ∀ p t, s.transitions.get? p = some t → (t.reluctant = true ↔
          ∀ j u, ReachedOn a w j → u ∈ a.transitions j → u.Consumes p → u.reluctant = true) := by
  obtain ⟨rfl, -, -⟩ := Nfa.build_eq_ok hb
  obtain ⟨keys, hr⟩ := exists_keys hd
  rcases run_spec (Nfa.inRange_ofNodes nodes) hr w with ⟨hq, hnone⟩ | ⟨q, key, hq, hkey, hk, hj⟩
  · rw [hq]
    refine ⟨⟨fun h => absurd h Bool.false_ne_true, fun ⟨j, hj⟩ => absurd hj (hnone j)⟩, ?_⟩
    rintro _ ⟨⟩
  · rw [hq]
    refine ⟨⟨fun _ => hj, fun _ => rfl⟩, ?_⟩
    rintro _ ⟨⟩
    obtain ⟨s, hs, hdom, htrans⟩ := hr.state q key hkey
    refine ⟨s, hs, pairwise_domains hd hs, fun i => ?_, fun p t ht => ?_⟩
    · rw [hdom]
      exact hk.mem_domainsOf
    · have hp := PointMap.inDomain_of_get? ht
      by_cases ho : offered (outgoing (Nfa.ofNodes nodes) key) p = []
      · rw [htrans.missing p hp ho] at ht
        cases ht
      · obtain ⟨t', ht', hcomb⟩ := htrans.present p hp ho
        cases ht.symm.trans ht'
        rw [hcomb.reluctant, hk.all_reluctant]

theorem determinize_simulates_letter :
    ∃ a d, Nfa.build .unset [.text ['a']] = .ok a ∧ a.determinize (some 9) = .ok d ∧
      ∃ j, ReachedOn a [97] j := by
  have hb : Nfa.build .unset [.text ['a']] = .ok (Nfa.ofNodes [.text ['a']]) := rfl
  have hrun : ((Nfa.ofNodes [.text ['a']]).determinize (some 9)).map
      (fun d => (d.run? Dfa.start [97]).isSome) = .ok true := rfl
  cases hd : (Nfa.ofNodes [.text ['a']]).determinize (some 9) with
  | error e =>
    rw [hd] at hrun
    cases hrun
  | ok d =>
    rw [hd] at hrun
    exact ⟨_, d, hb, hd, (determinize_simulates hb hd [97]).1.1 (Except.ok.inj hrun)⟩

end PatternAutomata.Subset
