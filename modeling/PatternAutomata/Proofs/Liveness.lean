import PatternAutomata.Proofs.Patterns
import PatternAutomata.Proofs.Reached

/-!
Ways out. From every state of an automaton, a path over characters and ends of input leads to an
accepting state, unless some set in the patterns holds neither a character nor the end of input.
-/

set_option autoImplicit false

namespace PatternAutomata

namespace Node

mutual

/-- Every set in the pattern holds a point that a matcher can be given. -/
def Populated : Node → Prop
  | empty => True
  | endOfInput => True
  | text _ => True
  | set s => ∃ p, Feedable p ∧ s.contains p = true
  | concat ns => PopulatedAll ns
  | oneOf a b => Populated a ∧ Populated b
  | repeated n _ _ _ => Populated n
  | group _ n => Populated n

def PopulatedAll : List Node → Prop
  | [] => True
  | n :: ns => Populated n ∧ PopulatedAll ns

end

theorem feedable_endOfInput : Feedable Point.endOfInput := .inl rfl

theorem feedable_ofChar (c : Char) : Feedable (Point.ofChar c) :=
  .inr (by rw [Point.char?_ofChar, Option.isSome_some])

end Node

namespace Nfa

open Node (Feedable Populated PopulatedAll feedable_endOfInput feedable_ofChar)

/-- Some path over points that a matcher can be given leads to an accepting state. -/
def Live (a : Nfa) (i : ℕ) : Prop :=
  ∃ ts j, AnyPath a i ts j ∧ (∀ p ∈ pointsOf ts, Feedable p) ∧ (a.domain? j).isSome = true

def LiveOut (a : Nfa) (out : List Transition) : Prop :=
  ∃ t ∈ out, t.points = none ∧ a.Live t.target

def LiveBetween (a : Nfa) (low high : ℕ) : Prop := ∀ i, low ≤ i → i < high → a.Live i

section

variable {a : Nfa} {i base count : ℕ} {out : List Transition}

theorem Live.accepting (h : (a.domain? i).isSome = true) : a.Live i :=
  ⟨[], i, .refl i, fun _ hp => absurd hp List.not_mem_nil, h⟩

theorem Live.silent {t : Transition} (ht : t ∈ a.transitions i) (hs : t.points = none)
    (h : a.Live t.target) : a.Live i := by
  obtain ⟨ts, j, hp, hf, hj⟩ := h
  have hx : t.Emits _ := .silent hs
  refine ⟨_, j, .step ht trivial hx hp, ?_, hj⟩
  rw [pointsOf_append, pointsOf_marker]
  exact hf

theorem Live.consuming {s : PointSet} {r : Bool} {k : ℕ} {p : ℤ}
    (hi : a.states[i]? = some ⟨none, [.consuming s r k]⟩) (hs : s.contains p = true)
    (hp : Feedable p) (h : a.Live k) : a.Live i := by
  obtain ⟨ts, j, hpath, hf, hj⟩ := h
  have ht : Transition.consuming s r k ∈ a.transitions i := by
    rw [transitions_of_getElem? hi]
    exact List.mem_singleton_self _
  exact ⟨_, j, .step ht trivial (.consume rfl hs) hpath, List.forall_mem_cons.2 ⟨hp, hf⟩, hj⟩

theorem LiveOut.live (h : a.LiveOut out) (hi : a.states[i]? = some ⟨none, out⟩) : a.Live i := by
  obtain ⟨t, ht, hs, hlive⟩ := h
  refine .silent ?_ hs hlive
  rw [transitions_of_getElem? hi]
  exact ht

theorem LiveOut.silent (h : a.Live i) : a.LiveOut (.silent i :: out) :=
  ⟨_, List.mem_cons_self, rfl, h⟩

theorem LiveOut.marking {m : Marker} (h : a.Live i) : a.LiveOut [.marking m i] :=
  ⟨_, List.mem_cons_self, rfl, h⟩

theorem LiveOut.cons (t : Transition) (h : a.LiveOut out) : a.LiveOut (t :: out) := by
  obtain ⟨u, hu, rest⟩ := h
  exact ⟨u, List.mem_cons_of_mem t hu, rest⟩

theorem LiveBetween.one (h : a.Live i) : a.LiveBetween i (i + 1) := by
  intro j h1 h2
  obtain rfl : j = i := by omega
  exact h

theorem LiveBetween.trans {low mid high : ℕ} (h : a.LiveBetween low mid)
    (h' : a.LiveBetween mid high) : a.LiveBetween low high := by
  intro i h1 h2
  by_cases hi : i < mid
  · exact h i h1 hi
  · exact h' i (Nat.le_of_not_lt hi) h2

theorem LiveBetween.first (h : a.LiveBetween base (base + count)) (hpos : 0 < count) :
    a.Live base :=
  h base le_rfl (Nat.lt_add_of_pos_right hpos)

theorem LiveOut.exit (h : a.LiveOut out) (hi : LaidOut a.states base [⟨none, out⟩]) :
    a.LiveBetween base (base + 1) :=
  .one (h.live (laidOut_cons.1 hi).1)

theorem liveBetween_consume {points : PointSet} {r : Bool}
    (hpoints : ∃ p, Feedable p ∧ points.contains p = true) (ho : a.LiveOut out)
    (h : LaidOut a.states base (consume points r base out)) : a.LiveBetween base (base + 2) := by
  obtain ⟨p, hp, hc⟩ := hpoints
  obtain ⟨h1, h2⟩ := laidOut_cons.1 h
  have hexit := ho.exit h2
  exact (LiveBetween.one (.consuming h1 hc hp (hexit.first Nat.one_pos))).trans hexit

theorem liveBetween_literal {cs : List Char} {r : Bool} (ho : a.LiveOut out)
    (h : LaidOut a.states base (literal cs r base out)) :
    a.LiveBetween base (base + (cs.length + 1)) := by
  induction cs generalizing base with
  | nil => exact ho.exit h
  | cons c cs ih =>
    obtain ⟨h1, h2⟩ := laidOut_cons.1 h
    have hrest := ih h2
    have hfirst : a.Live base := .consuming h1 ((PointSet.contains_single c _).2 rfl)
      (feedable_ofChar c) (hrest.first (Nat.succ_pos _))
    rw [List.length_cons, Nat.add_comm (cs.length + 1) 1, ← Nat.add_assoc]
    exact (LiveBetween.one hfirst).trans hrest

section

variable {copy : ℕ → List Transition → List State} {size : ℕ} (hpos : 0 < size)
  (hlen : ∀ base out, (copy base out).length = size)
  (hc : ∀ base out, a.LiveOut out → LaidOut a.states base (copy base out) →
    a.LiveBetween base (base + size))

include hpos hlen hc

/-- Of a row of copies the last is live because of what follows, and each of the others because the
next one is. -/
theorem liveBetween_chain {link : ℕ → List Transition}
    (hlink : ∀ next, a.Live next → a.LiveOut (link next)) (ho : a.LiveOut out)
    (h : LaidOut a.states base (chain copy size base count link out)) :
    a.LiveBetween base (base + count * size) := by
  induction count generalizing base with
  | zero => exact fun i h1 h2 => absurd h2 (by omega)
  | succ count ih =>
    rw [chain_succ, laidOut_append, hlen] at h
    have hrest := ih h.2
    have hout : a.LiveOut (if count = 0 then out else link (base + size)) := by
      split
      case isTrue => exact ho
      case isFalse h0 =>
        exact hlink _ (hrest.first (Nat.mul_pos (Nat.pos_of_ne_zero h0) hpos))
    rw [Nat.succ_mul, Nat.add_comm (count * size), ← Nat.add_assoc]
    exact (hc base _ hout h.1).trans hrest

theorem liveBetween_mandatory (ho : a.LiveOut out)
    (h : LaidOut a.states base (mandatory copy size base count out)) :
    a.LiveBetween base (base + copiesCount size count) := by
  rw [mandatory] at h
  rw [copiesCount]
  by_cases h0 : count = 0
  · rw [if_pos h0] at h ⊢
    exact ho.exit h
  · rw [if_neg h0] at h ⊢
    exact liveBetween_chain hpos hlen hc (fun _ => .silent) ho h

end

mutual

/-- All states of a fragment are live if there is a live way on. -/
theorem liveBetween_fragment : (n : Node) → (r : Bool) → (base : ℕ) → (out : List Transition) →
    Populated n → a.LiveOut out → LaidOut a.states base (fragment n r base out) →
    a.LiveBetween base (base + stateCount n)
  | .empty, _, _, _, _, ho, h => by
    rw [fragment] at h
    rw [stateCount]
    exact ho.exit h
  | .endOfInput, _, _, _, _, ho, h => by
    rw [fragment] at h
    rw [stateCount]
    exact liveBetween_consume
      ⟨_, feedable_endOfInput, (PointSet.contains_endOfInput _).2 rfl⟩ ho h
  | .text _, _, _, _, _, ho, h => by
    rw [fragment] at h
    rw [stateCount]
    exact liveBetween_literal ho h
  | .set _, _, _, _, hn, ho, h => by
    rw [fragment] at h
    rw [stateCount]
    rw [Populated] at hn
    exact liveBetween_consume hn ho h
  | .concat [], _, _, _, _, ho, h => by
    rw [fragment] at h
    rw [stateCount]
    exact ho.exit h
  | .concat (n :: ns), r, base, out, hn, ho, h => by
    rw [fragment] at h
    rw [stateCount]
    rw [Populated] at hn
    exact liveBetween_fragmentAll (n :: ns) r base out hn ho h
  | .oneOf n m, r, base, out, hn, ho, h => by
    rw [Populated] at hn
    simp only [fragment, List.cons_append, List.append_assoc, laidOut_cons, laidOut_append,
      length_fragment] at h
    obtain ⟨h1, h2, h3, h4, -⟩ := h
    have hexit := ho.live h4
    have hfirst := liveBetween_fragment n r _ _ hn.1 (.silent hexit) h2
    have hsecond := liveBetween_fragment m r _ _ hn.2 (.silent hexit) h3
    have hentry := (LiveOut.silent (hfirst.first (stateCount_pos n))).live h1
    have hend : base + stateCount (.oneOf n m) =
        base + 1 + stateCount n + stateCount m + 1 := by
      rw [stateCount]
      omega
    rw [hend]
    exact (((LiveBetween.one hentry).trans hfirst).trans hsecond).trans (.one hexit)
  | .repeated n min none lazily, r, base, out, hn, ho, h => by
    rw [Populated] at hn
    simp only [fragment, laidOut_append, laidOut_cons,
      length_mandatory _ _ (length_fragment n r)] at h
    obtain ⟨h1, h2, h3⟩ := h
    have hloop := (ho.cons _).live h2
    have hbody := liveBetween_fragment n (r || lazily) _ _ hn (.silent hloop) h3
    have hfirst := liveBetween_mandatory (stateCount_pos n) (length_fragment n r)
      (fun base out => liveBetween_fragment n r base out hn) (.silent hloop) h1
    have hend : base + stateCount (.repeated n min none lazily) =
        base + copiesCount (stateCount n) min + 1 + stateCount n := by
      rw [stateCount, optionalCopies]
      omega
    rw [hend]
    exact (hfirst.trans (.one hloop)).trans hbody
  | .repeated n min (some max) lazily, r, base, out, hn, ho, h => by
    rw [Populated] at hn
    simp only [fragment, laidOut_append, laidOut_cons,
      length_mandatory _ _ (length_fragment n r)] at h
    obtain ⟨h1, h2, h3⟩ := h
    have hexit := ho.live h2
    have hrest := liveBetween_chain (stateCount_pos n) (length_fragment n (r || lazily))
      (fun base out => liveBetween_fragment n (r || lazily) base out hn)
      (fun next hnext => .silent hnext) (.silent hexit) h3
    have hskip : a.LiveOut (if max - min = 0 then
        [.silent (base + copiesCount (stateCount n) min)]
        else [.silent (base + copiesCount (stateCount n) min + 1),
          .silent (base + copiesCount (stateCount n) min)]) := by
      split
      case isTrue => exact .silent hexit
      case isFalse => exact (LiveOut.silent hexit).cons _
    have hfirst := liveBetween_mandatory (stateCount_pos n) (length_fragment n r)
      (fun base out => liveBetween_fragment n r base out hn) hskip h1
    have hend : base + stateCount (.repeated n min (some max) lazily) =
        base + copiesCount (stateCount n) min + 1 + (max - min) * stateCount n := by
      rw [stateCount, optionalCopies]
      omega
    rw [hend]
    exact (hfirst.trans (.one hexit)).trans hrest
  | .group id n, r, base, out, hn, ho, h => by
    rw [Populated] at hn
    simp only [fragment, List.cons_append, laidOut_cons, laidOut_append, length_fragment] at h
    obtain ⟨h1, h2, h3, -⟩ := h
    have hexit := ho.live h3
    have hbody := liveBetween_fragment n r _ _ hn (.marking hexit) h2
    have hentry := (LiveOut.marking (hbody.first (stateCount_pos n))).live h1
    have hend : base + stateCount (.group id n) = base + 1 + stateCount n + 1 := by
      rw [stateCount]
      omega
    rw [hend]
    exact ((LiveBetween.one hentry).trans hbody).trans (.one hexit)

theorem liveBetween_fragmentAll : (ns : List Node) → (r : Bool) → (base : ℕ) →
    (out : List Transition) → PopulatedAll ns → a.LiveOut out →
    LaidOut a.states base (fragmentAll ns r base out) →
    a.LiveBetween base (base + stateCountAll ns)
  | [], _, _, _, _, _, _ => fun _ h1 h2 => absurd h2 (by rw [stateCountAll]; omega)
  | [n], r, base, out, hn, ho, h => by
    rw [fragmentAll] at h
    rw [PopulatedAll] at hn
    rw [stateCountAll, stateCountAll, Nat.add_zero]
    exact liveBetween_fragment n r base out hn.1 ho h
  | n :: m :: ns, r, base, out, hn, ho, h => by
    rw [fragmentAll, laidOut_append, length_fragment] at h
    rw [PopulatedAll] at hn
    have hrest := liveBetween_fragmentAll (m :: ns) r _ out hn.2 ho h.2
    have hout : a.LiveOut [.silent (base + stateCount n)] :=
      .silent (hrest.first (stateCountAll_pos m ns))
    rw [stateCountAll, ← Nat.add_assoc]
    exact (liveBetween_fragment n r base _ hn.1 hout h.1).trans hrest

end

end

theorem AnyPath.lt_size {a : Nfa} (ha : InRange a) {i j : ℕ} {ts : List Token}
    (h : AnyPath a i ts j) (hi : i < a.size) : j < a.size := by
  induction h with
  | refl i => exact hi
  | step ht _ _ _ ih => exact ih (ha.target _ _ ht)

section

variable {nodes : List Node} (hp : ∀ n ∈ nodes, Populated n)

include hp

theorem Placed.live {n : Node} {i b id : ℕ} (h : Placed nodes n i b) (h1 : b ≤ id)
    (h2 : id ≤ b + stateCount n) : (ofNodes nodes).Live id := by
  have haccept : (ofNodes nodes).Live (b + stateCount n) := by
    refine .accepting ?_
    rw [(h.domain?_iff _).2 rfl, Option.isSome_some]
  rcases h2.lt_or_eq with hlt | rfl
  · exact liveBetween_fragment n false b _ (hp n (List.mem_of_getElem? h.node)) (.silent haccept)
      h.block.body id h1 hlt
  · exact haccept

theorem live_ofNodes (hne : nodes ≠ []) {id : ℕ} (hid : id < (ofNodes nodes).size) :
    (ofNodes nodes).Live id := by
  by_cases h0 : id = start
  · have hzero : nodes[0]? = some (nodes.head hne) := by
      rw [← List.head?_eq_getElem?, List.head?_eq_some_head hne]
    obtain ⟨b, hplaced⟩ := exists_placed hzero
    have hmem : Transition.silent b ∈ (ofNodes nodes).transitions id := by
      rw [h0, transitions_start]
      exact List.mem_map_of_mem (List.mem_of_getElem? hplaced.entry)
    exact .silent hmem rfl (hplaced.live hp le_rfl (Nat.le_add_right b _))
  · obtain ⟨i, n, b, hplaced, hle, hid'⟩ := locate (Array.getElem?_eq_getElem hid) h0
    refine hplaced.live hp hle ?_
    rcases hid' with ⟨hlt, -⟩ | ⟨heq, -⟩
    · exact hlt.le
    · exact heq.le

end

end Nfa

end PatternAutomata
