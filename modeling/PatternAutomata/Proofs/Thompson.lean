import PatternAutomata.Proofs.Fragment
import PatternAutomata.Proofs.Collections
import PatternAutomata.Proofs.Passage
import PatternAutomata.Proofs.PointSet
import PatternAutomata.Proofs.Traces

/-!
Fragments are exact: the way through the fragment of a pattern to an accepting state meets the
traces of the pattern and nothing else.
-/

set_option autoImplicit false

namespace PatternAutomata.Nfa

open Node (upTo upTo_zero upTo_succ unrolled_none unrolled_some)

section

variable {a : Nfa} {allowed : ℕ → Transition → Prop} {j : ℕ} (hj : (a.domain? j).isSome)
  (hf : ∀ i t, a.domain? i = none → allowed i t)

variable {copy : ℕ → List Transition → List State} {size : ℕ} {l : Language Token}

theorem passage_chain (hlen : ∀ base out, (copy base out).length = size)
    (hc : ∀ base out, LaidOut a.states base (copy base out) →
      Passage a allowed j [.silent base] out l) {count base : ℕ} {out : List Transition}
    (h : LaidOut a.states base (chain copy size base (count + 1) (fun i => [.silent i]) out)) :
    Passage a allowed j [.silent base] out (l ^ (count + 1)) := by
  induction count generalizing base with
  | zero =>
    rw [chain_succ, chain_zero, List.append_nil, if_pos rfl] at h
    rw [Nat.zero_add, pow_one]
    exact hc base out h
  | succ count ih =>
    rw [chain_succ, if_neg (Nat.succ_ne_zero count), laidOut_append, hlen] at h
    rw [pow_succ']
    exact (hc base _ h.1).trans (ih h.2)

include hj hf in
theorem passage_mandatory {count : ℕ} (hlen : ∀ base out, (copy base out).length = size)
    (hc : 0 < count → ∀ base out, LaidOut a.states base (copy base out) →
      Passage a allowed j [.silent base] out l) {base : ℕ} {out : List Transition}
    (h : LaidOut a.states base (mandatory copy size base count out)) :
    Passage a allowed j [.silent base] out (l ^ count) := by
  cases count with
  | zero => exact Passage.state hj hf (laidOut_cons.1 h).1
  | succ count => exact passage_chain hlen (hc (Nat.succ_pos count)) h

def skipping (count next exit : ℕ) : List Transition :=
  if count = 0 then [.silent exit] else [.silent next, .silent exit]

/-- Each of the copies may be the first that is left out, and those behind it are then left out as
well. -/
theorem passage_optional {count exit : ℕ} (hlen : ∀ base out, (copy base out).length = size)
    (hc : 0 < count → ∀ base out, LaidOut a.states base (copy base out) →
      Passage a allowed j [.silent base] out l) {base : ℕ}
    (h : LaidOut a.states base
      (chain copy size base count (fun i => [.silent i, .silent exit]) [.silent exit])) :
    Passage a allowed j (skipping count base exit) [.silent exit] (upTo l count) := by
  induction count generalizing base with
  | zero =>
    rw [upTo_zero]
    exact Passage.refl
  | succ count ih =>
    rw [chain_succ, laidOut_append, hlen] at h
    have hcopy : Passage a allowed j [.silent base] (skipping count (base + size) exit) l :=
      hc (Nat.succ_pos count) base _ h.1
    rw [upTo_succ]
    exact (hcopy.trans (ih (fun _ => hc (Nat.succ_pos count)) h.2)).add Passage.refl

theorem emitted_singleton {s : PointSet} {q : ℤ} (h : ∀ p, s.contains p = true ↔ p = q) (r : Bool)
    (i : ℕ) : (Transition.consuming s r i).emitted = {[.point q r]} := by
  rw [emitted_consuming]
  apply Language.ext
  intro w
  constructor
  · rintro ⟨p, hp, rfl⟩
    obtain rfl := (h p).1 hp
    rfl
  · rintro rfl
    exact ⟨q, (h q).2 rfl, rfl⟩

include hj hf in
theorem passage_consume {points : PointSet} {r : Bool} {base : ℕ} {out : List Transition}
    (h : LaidOut a.states base (consume points r base out)) :
    Passage a allowed j [.silent base] out (Transition.consuming points r (base + 1)).emitted := by
  obtain ⟨h1, h⟩ := laidOut_cons.1 h
  have hp := ((Passage.state hj hf h1).trans (Passage.emitted _)).trans
    (Passage.state hj hf (laidOut_cons.1 h).1)
  rw [one_mul, mul_one] at hp
  exact hp

include hj hf in
theorem passage_literal {cs : List Char} {r : Bool} {base : ℕ} {out : List Transition}
    (h : LaidOut a.states base (literal cs r base out)) :
    Passage a allowed j [.silent base] out {cs.map fun c => .point (Point.ofChar c) r} := by
  induction cs generalizing base with
  | nil => exact Passage.state hj hf (laidOut_cons.1 h).1
  | cons c cs ih =>
    obtain ⟨h1, h⟩ := laidOut_cons.1 h
    have hp := ((Passage.state hj hf h1).trans (Passage.emitted _)).trans (ih h)
    rw [one_mul, emitted_singleton (PointSet.contains_single c)] at hp
    have hmul : ∀ x (xs : List Token), ({[x]} * {xs} : Language Token) = {x :: xs} :=
      fun _ _ => Set.image2_singleton
    rw [hmul] at hp
    exact hp

end

section

variable {a : Nfa} {allowed : ℕ → Transition → Prop} {j : ℕ}

mutual

/-- What is met on the way through a fragment is a trace of the pattern. -/
theorem passage_fragment (hj : (a.domain? j).isSome)
    (hf : ∀ i t, a.domain? i = none → allowed i t) : (n : Node) → (r : Bool) → (base : ℕ) →
    (out : List Transition) → Counted n → LaidOut a.states base (fragment n r base out) →
    Passage a allowed j [.silent base] out (n.traces r)
  | .empty, r, base, out, _, h => by
    rw [fragment] at h
    rw [Node.traces]
    exact Passage.state hj hf (laidOut_cons.1 h).1
  | .endOfInput, r, base, out, _, h => by
    rw [fragment] at h
    have hp := passage_consume hj hf h
    rw [emitted_singleton PointSet.contains_endOfInput] at hp
    rw [Node.traces]
    exact hp
  | .text cs, r, base, out, _, h => by
    rw [fragment] at h
    rw [Node.traces]
    exact passage_literal hj hf h
  | .set _, r, base, out, _, h => by
    rw [fragment] at h
    have hp := passage_consume hj hf h
    rw [emitted_consuming] at hp
    rw [Node.traces]
    exact hp
  | .concat [], r, base, out, _, h => by
    rw [fragment] at h
    rw [Node.traces, Node.tracesAll]
    exact Passage.state hj hf (laidOut_cons.1 h).1
  | .concat (n :: ns), r, base, out, hn, h => by
    rw [fragment] at h
    rw [Counted] at hn
    rw [Node.traces]
    exact passage_fragmentAll hj hf (n :: ns) r base out (List.cons_ne_nil n ns) hn h
  | .oneOf n m, r, base, out, hn, h => by
    rw [Counted] at hn
    simp only [fragment, List.cons_append, List.append_assoc, laidOut_cons, laidOut_append,
      length_fragment] at h
    obtain ⟨h1, h2, h3, h4, -⟩ := h
    rw [Node.traces, ← one_mul (_ + _), ← mul_one (_ + _)]
    have hfirst := passage_fragment hj hf n r _ _ hn.1 h2
    have hsecond := passage_fragment hj hf m r _ _ hn.2 h3
    exact (Passage.state hj hf h1).trans
      ((hfirst.add hsecond).trans (Passage.state hj hf h4))
  | .repeated n min none lazily, r, base, out, hn, h => by
    rw [Counted] at hn
    simp only [fragment, laidOut_append, laidOut_cons,
      length_mandatory _ _ (length_fragment n r)] at h
    obtain ⟨h1, h2, h3⟩ := h
    have hbody := passage_fragment hj hf n (r || lazily) _ _ (hn.2 (.inr Nat.one_pos)) h3
    rw [Node.traces, unrolled_none]
    exact (passage_mandatory hj hf (length_fragment n r)
      (fun h0 base out => passage_fragment hj hf n r base out (hn.2 (.inl h0))) h1).trans
        (Passage.loop hj hf h2 hbody)
  | .repeated n min (some max) lazily, r, base, out, hn, h => by
    rw [Counted] at hn
    simp only [fragment, laidOut_append, laidOut_cons,
      length_mandatory _ _ (length_fragment n r)] at h
    obtain ⟨h1, h2, h3⟩ := h
    have hfirst := passage_mandatory hj hf (length_fragment n r)
      (fun h0 base out => passage_fragment hj hf n r base out (hn.2 (.inl h0))) h1
    have hrest := passage_optional (length_fragment n (r || lazily))
      (fun h0 base out => passage_fragment hj hf n (r || lazily) base out (hn.2 (.inr h0))) h3
    rw [Node.traces, unrolled_some _ _ (hn.1 max rfl), ← mul_one (_ * _)]
    exact (hfirst.trans hrest).trans (Passage.state hj hf h2)
  | .group id n, r, base, out, hn, h => by
    rw [Counted] at hn
    simp only [fragment, List.cons_append, laidOut_cons, laidOut_append, length_fragment] at h
    obtain ⟨h1, h2, h3, -⟩ := h
    have hbody := passage_fragment hj hf n r _ _ hn h2
    have hp := ((((Passage.state hj hf h1).trans (Passage.emitted _)).trans hbody).trans
      (Passage.emitted _)).trans (Passage.state hj hf h3)
    rw [one_mul, mul_one, emitted_marking, emitted_marking] at hp
    rw [Node.traces]
    exact hp

theorem passage_fragmentAll (hj : (a.domain? j).isSome)
    (hf : ∀ i t, a.domain? i = none → allowed i t) : (ns : List Node) → (r : Bool) → (base : ℕ) →
    (out : List Transition) → ns ≠ [] → CountedAll ns →
    LaidOut a.states base (fragmentAll ns r base out) →
    Passage a allowed j [.silent base] out (Node.tracesAll ns r)
  | [], _, _, _, h0, _, _ => absurd rfl h0
  | [n], r, base, out, _, hn, h => by
    rw [fragmentAll] at h
    rw [CountedAll] at hn
    rw [Node.tracesAll, Node.tracesAll, mul_one]
    exact passage_fragment hj hf n r base out hn.1 h
  | n :: m :: ns, r, base, out, _, hn, h => by
    rw [fragmentAll, laidOut_append, length_fragment] at h
    rw [CountedAll] at hn
    rw [Node.tracesAll]
    exact (passage_fragment hj hf n r base _ hn.1 h.1).trans
      (passage_fragmentAll hj hf (m :: ns) r _ out (List.cons_ne_nil m ns) hn.2 h.2)

end

end

end PatternAutomata.Nfa
