import PatternAutomata.Nfa.Build
import Mathlib.Data.Nat.Notation
import Mathlib.Tactic.Common

/-!
What fragments are made of: copies laid out one after another, transitions that stay inside or are
those given for the exit, and repetitions whose ends are the right way round wherever a copy of
them is made.
-/

set_option autoImplicit false

namespace PatternAutomata.Nfa

mutual

def Counted : Node → Prop
  | .concat ns => CountedAll ns
  | .oneOf a b => Counted a ∧ Counted b
  | .repeated n min max _ =>
    (∀ m, max = some m → min ≤ m) ∧ (0 < min ∨ 0 < optionalCopies min max → Counted n)
  | .group _ n => Counted n
  | _ => True

def CountedAll : List Node → Prop
  | [] => True
  | n :: ns => Counted n ∧ CountedAll ns

end

theorem le_of_ofCounts {min : ℕ} {max : Option ℕ} (h : BuildError.ofCounts min max = .ok ()) :
    ∀ m, max = some m → min ≤ m := by
  rintro m rfl
  rw [BuildError.ofCounts] at h
  split at h
  · cases h
  · omega

theorem ok_of_takeCopies {limit : ℕ} {copy : ℕ → Except BuildError ℕ} {count used u : ℕ}
    (hc : 0 < count) (h : takeCopies limit copy count used = .ok u) : ∃ v, copy used = .ok v := by
  rw [takeCopies, if_neg (by omega)] at h
  obtain ⟨v, hv, -⟩ := ok_of_bind h
  exact ⟨v, hv⟩

mutual

theorem counted_of_reserve {limit : ℕ} : (n : Node) → {used u : ℕ} →
    reserve limit n used = .ok u → Counted n
  | .empty, _, _, _ => by simp only [Counted]
  | .endOfInput, _, _, _ => by simp only [Counted]
  | .text _, _, _, _ => by simp only [Counted]
  | .set _, _, _, _ => by simp only [Counted]
  | .concat [], _, _, _ => by simp only [Counted, CountedAll]
  | .concat (n :: ns), _, _, h => by
    rw [reserve] at h
    rw [Counted]
    exact countedAll_of_reserveAll (n :: ns) h
  | .oneOf a b, _, _, h => by
    rw [reserve] at h
    obtain ⟨_, -, h⟩ := ok_of_bind h
    obtain ⟨_, ha, h⟩ := ok_of_bind h
    obtain ⟨_, hb, -⟩ := ok_of_bind h
    rw [Counted]
    exact ⟨counted_of_reserve a ha, counted_of_reserve b hb⟩
  | .repeated n min max _, _, _, h => by
    rw [reserve] at h
    obtain ⟨_, hm, h⟩ := ok_of_bind h
    rw [Counted]
    refine ⟨le_of_ofCounts hm, fun hc => ?_⟩
    dsimp only at h
    split at h
    case isTrue h0 =>
      obtain ⟨_, -, h⟩ := ok_of_bind h
      obtain ⟨_, -, h⟩ := ok_of_bind h
      obtain ⟨_, hv⟩ := ok_of_takeCopies (hc.resolve_left (by omega)) h
      exact counted_of_reserve n hv
    case isFalse h0 =>
      obtain ⟨_, hp, -⟩ := ok_of_bind h
      obtain ⟨_, hv⟩ := ok_of_takeCopies (Nat.pos_of_ne_zero h0) hp
      exact counted_of_reserve n hv
  | .group _ n, _, _, h => by
    rw [reserve] at h
    obtain ⟨_, -, h⟩ := ok_of_bind h
    obtain ⟨_, hn, -⟩ := ok_of_bind h
    rw [Counted]
    exact counted_of_reserve n hn

theorem countedAll_of_reserveAll {limit : ℕ} : (ns : List Node) → {used u : ℕ} →
    reserveAll limit ns used = .ok u → CountedAll ns
  | [], _, _, _ => by simp only [CountedAll]
  | n :: ns, _, _, h => by
    rw [reserveAll] at h
    obtain ⟨_, hn, h⟩ := ok_of_bind h
    rw [CountedAll]
    exact ⟨counted_of_reserve n hn, countedAll_of_reserveAll ns h⟩

end

theorem counted_of_reservePatterns {limit : ℕ} {ns : List Node} {used u : ℕ}
    (h : reservePatterns limit ns used = .ok u) : ∀ n ∈ ns, Counted n := by
  induction ns generalizing used with
  | nil =>
    intro n hn
    cases hn
  | cons m ns ih =>
    rw [reservePatterns] at h
    obtain ⟨_, hm, h⟩ := ok_of_bind h
    obtain ⟨_, -, h⟩ := ok_of_bind h
    intro n hn
    rcases List.mem_cons.1 hn with rfl | hn
    · exact counted_of_reserve n hm
    · exact ih h n hn

theorem build_eq_ok {limits : Limits} {nodes : List Node} {a : Nfa}
    (h : build limits nodes = .ok a) :
    a = ofNodes nodes ∧ nodes ≠ [] ∧ ∀ n ∈ nodes, Counted n := by
  rw [build] at h
  split at h
  · cases h
  split at h
  · cases h
  rename_i hn _
  obtain ⟨_, -, h⟩ := ok_of_bind h
  obtain ⟨_, hr, h⟩ := ok_of_bind h
  cases h
  exact ⟨rfl, fun h => hn (by rw [h]; rfl), counted_of_reservePatterns hr⟩

mutual

theorem stateCount_pos : (n : Node) → 0 < stateCount n
  | .empty => by simp [stateCount]
  | .endOfInput => by simp [stateCount]
  | .text _ => by simp [stateCount]
  | .set _ => by simp [stateCount]
  | .concat [] => by simp [stateCount]
  | .concat (n :: ns) => by
    rw [stateCount]
    exact stateCountAll_pos n ns
  | .oneOf _ _ => by simp [stateCount]
  | .repeated n min max _ => by
    rw [stateCount]
    omega
  | .group _ _ => by simp [stateCount]

theorem stateCountAll_pos : (n : Node) → (ns : List Node) → 0 < stateCountAll (n :: ns)
  | n, ns => by
    have := stateCount_pos n
    rw [stateCountAll]
    omega

end

section

variable (copy : ℕ → List Transition → List State) (size base count : ℕ)
  (link : ℕ → List Transition) (out : List Transition)

theorem chain_zero : chain copy size base 0 link out = [] := rfl

theorem chain_succ :
    chain copy size base (count + 1) link out =
      copy base (if count = 0 then out else link (base + size)) ++
        chain copy size (base + size) count link out := by
  simp only [chain, List.range_succ_eq_map, List.flatMap_cons, List.flatMap_map]
  congr 1
  · rw [Nat.zero_mul, Nat.add_zero, Nat.zero_add, Nat.one_mul]
    split <;> split <;> first | rfl | omega
  · congr 1
    funext i
    have h1 : base + i.succ * size = base + size + i * size := by
      rw [Nat.succ_mul]
      omega
    have h2 : base + (i.succ + 1) * size = base + size + (i + 1) * size := by
      rw [Nat.succ_mul, Nat.succ_mul]
      omega
    rw [h1, h2]
    congr 1
    simp only [Nat.succ_eq_add_one, Nat.add_lt_add_iff_right]

variable {copy size base count link out}

def Within (given : List Transition) (low high : ℕ) (t : Transition) : Prop :=
  t ∈ given ∨ low ≤ t.target ∧ t.target < high

/-- States that accept nothing and stay in a range of states but for given transitions. -/
def Inner (given : List Transition) (low high : ℕ) (s : State) : Prop :=
  s.domain = none ∧ ∀ t ∈ s.transitions, Within given low high t

variable {given : List Transition} {low high : ℕ}

theorem Inner.mono {low' high' : ℕ} {s : State} (h : Inner out low' high' s) (h1 : low ≤ low')
    (h2 : high' ≤ high) (hg : ∀ t ∈ out, Within given low high t) : Inner given low high s := by
  refine ⟨h.1, fun t ht => ?_⟩
  rcases h.2 t ht with h | h
  · exact hg t h
  · exact .inr ⟨by omega, by omega⟩

theorem inner_exit {s : State} (hs : s ∈ [(⟨none, out⟩ : State)]) : Inner out low high s := by
  obtain rfl := List.mem_singleton.1 hs
  exact ⟨rfl, fun _ => .inl⟩

theorem within_silent {i : ℕ} (h1 : low ≤ i) (h2 : i < high) :
    ∀ t ∈ [Transition.silent i], Within given low high t := by
  intro t ht
  obtain rfl := List.mem_singleton.1 ht
  exact .inr ⟨h1, h2⟩

theorem within_marking {m : Marker} {i : ℕ} (h1 : low ≤ i) (h2 : i < high) :
    ∀ t ∈ [Transition.marking m i], Within given low high t := by
  intro t ht
  obtain rfl := List.mem_singleton.1 ht
  exact .inr ⟨h1, h2⟩

theorem within_cons {t : Transition} {ts : List Transition} (h : Within given low high t)
    (hs : ∀ t ∈ ts, Within given low high t) : ∀ u ∈ t :: ts, Within given low high u :=
  List.forall_mem_cons.2 ⟨h, hs⟩

theorem inner_chain (hs : 0 < size)
    (hc : ∀ base out, ∀ s ∈ copy base out, Inner out base (base + size) s)
    (hb : low ≤ base) (hh : base + count * size ≤ high)
    (hl : ∀ next, low ≤ next → next < high → ∀ t ∈ link next, Within given low high t)
    (ho : ∀ t ∈ out, Within given low high t) :
    ∀ s ∈ chain copy size base count link out, Inner given low high s := by
  intro s hm
  obtain ⟨i, hi, hm⟩ := List.mem_flatMap.1 hm
  have hi : i + 1 ≤ count := List.mem_range.1 hi
  have h1 : (i + 1) * size ≤ count * size := Nat.mul_le_mul_right size hi
  rw [Nat.succ_mul] at h1
  refine (hc _ _ s hm).mono (by omega) (by omega) ?_
  split
  case isTrue h2 =>
    have h3 : (i + 2) * size ≤ count * size := Nat.mul_le_mul_right size h2
    rw [Nat.succ_mul, Nat.succ_mul] at h3
    exact hl _ (by omega) (by rw [Nat.succ_mul]; omega)
  case isFalse => exact ho

theorem inner_mandatory (hs : 0 < size)
    (hc : ∀ base out, ∀ s ∈ copy base out, Inner out base (base + size) s)
    (hh : base + copiesCount size count ≤ high) (ho : ∀ t ∈ out, Within given base high t) :
    ∀ s ∈ mandatory copy size base count out, Inner given base high s := by
  rw [mandatory]
  rw [copiesCount] at hh
  split
  case isTrue =>
    intro s hm
    obtain rfl := List.mem_singleton.1 hm
    exact ⟨rfl, ho⟩
  case isFalse h0 =>
    rw [if_neg h0] at hh
    exact inner_chain hs hc (Nat.le_refl _) hh (fun next => within_silent) ho

theorem inner_consume {points : PointSet} {r : Bool} :
    ∀ s ∈ consume points r base out, Inner out base (base + 2) s := by
  intro s hs
  rcases List.mem_cons.1 hs with rfl | hs
  · refine ⟨rfl, fun t ht => ?_⟩
    obtain rfl := List.mem_singleton.1 ht
    exact .inr ⟨Nat.le_succ base, Nat.lt_succ_self (base + 1)⟩
  · exact inner_exit hs

theorem inner_literal {cs : List Char} {r : Bool} :
    ∀ s ∈ literal cs r base out, Inner out base (base + (cs.length + 1)) s := by
  intro s hs
  rcases List.mem_append.1 hs with hs | hs
  · obtain ⟨⟨c, id⟩, hc, rfl⟩ := List.mem_map.1 hs
    obtain ⟨h1, h2, -⟩ := List.mem_zipIdx hc
    refine ⟨rfl, fun t ht => ?_⟩
    obtain rfl := List.mem_singleton.1 ht
    exact .inr ⟨Nat.le_succ_of_le h1, Nat.succ_lt_succ (by omega)⟩
  · exact inner_exit hs

end

mutual

theorem inner_fragment : (n : Node) → (r : Bool) → (base : ℕ) → (out : List Transition) →
    ∀ s ∈ fragment n r base out, Inner out base (base + stateCount n) s
  | .empty, _, _, _, s, hs => by
    rw [fragment] at hs
    exact inner_exit hs
  | .endOfInput, r, base, out, s, hs => by
    rw [fragment] at hs
    exact inner_consume s hs
  | .text cs, r, base, out, s, hs => by
    rw [fragment] at hs
    exact inner_literal s hs
  | .set _, r, base, out, s, hs => by
    rw [fragment] at hs
    exact inner_consume s hs
  | .concat [], _, _, _, s, hs => by
    rw [fragment] at hs
    exact inner_exit hs
  | .concat (n :: ns), r, base, out, s, hs => by
    rw [fragment] at hs
    rw [stateCount]
    exact inner_fragmentAll (n :: ns) r base out s hs
  | .oneOf a b, r, base, out, s, hs => by
    have ha := stateCount_pos a
    have hb := stateCount_pos b
    rw [stateCount]
    simp only [fragment, List.cons_append, List.mem_cons, List.mem_append, List.not_mem_nil,
      or_false, or_assoc] at hs
    rcases hs with rfl | hs | hs | rfl
    · exact ⟨rfl, within_cons (within_silent (by omega) (by omega) _ (List.mem_singleton_self _))
        (within_silent (by omega) (by omega))⟩
    · exact (inner_fragment a r _ _ s hs).mono (by omega) (by omega)
        (within_silent (by omega) (by omega))
    · exact (inner_fragment b r _ _ s hs).mono (by omega) (by omega)
        (within_silent (by omega) (by omega))
    · exact ⟨rfl, fun _ => .inl⟩
  | .repeated n min none lazily, r, base, out, s, hs => by
    have hn := stateCount_pos n
    rw [stateCount, optionalCopies, Nat.one_mul]
    simp only [fragment, List.mem_append, List.mem_cons] at hs
    rcases hs with hs | rfl | hs
    · exact inner_mandatory hn (inner_fragment n r) (by omega)
        (within_silent (by omega) (by omega)) s hs
    · exact ⟨rfl, within_cons (within_silent (by omega) (by omega) _ (List.mem_singleton_self _))
        fun _ => .inl⟩
    · exact (inner_fragment n _ _ _ s hs).mono (by omega) (by omega)
        (within_silent (by omega) (by omega))
  | .repeated n min (some max) lazily, r, base, out, s, hs => by
    have hn := stateCount_pos n
    rw [stateCount, optionalCopies]
    simp only [fragment, List.mem_append, List.mem_cons] at hs
    have hskip : ∀ next, base ≤ next →
        next < base + (copiesCount (stateCount n) min + 1 + (max - min) * stateCount n) →
        ∀ t ∈ [Transition.silent next, .silent (base + copiesCount (stateCount n) min)],
        Within out base (base + (copiesCount (stateCount n) min + 1 +
          (max - min) * stateCount n)) t := by
      intro next h1 h2
      exact within_cons (.inr ⟨h1, h2⟩) (within_silent (by omega) (by omega))
    rcases hs with hs | rfl | hs
    · refine inner_mandatory hn (inner_fragment n r) (by omega) ?_ s hs
      split
      case isTrue => exact within_silent (by omega) (by omega)
      case isFalse h0 =>
        have : stateCount n ≤ (max - min) * stateCount n :=
          Nat.le_mul_of_pos_left _ (by omega)
        exact hskip _ (by omega) (by omega)
    · exact ⟨rfl, fun _ => .inl⟩
    · exact inner_chain hn (inner_fragment n (r || lazily)) (by omega) (by omega) hskip
        (within_silent (by omega) (by omega)) s hs
  | .group id n, r, base, out, s, hs => by
    have hn := stateCount_pos n
    rw [stateCount]
    simp only [fragment, List.cons_append, List.mem_cons, List.mem_append, List.not_mem_nil,
      or_false] at hs
    rcases hs with rfl | hs | rfl
    · exact ⟨rfl, within_marking (by omega) (by omega)⟩
    · exact (inner_fragment n r _ _ s hs).mono (by omega) (by omega)
        (within_marking (by omega) (by omega))
    · exact ⟨rfl, fun _ => .inl⟩

theorem inner_fragmentAll : (ns : List Node) → (r : Bool) → (base : ℕ) →
    (out : List Transition) → ∀ s ∈ fragmentAll ns r base out,
      Inner out base (base + stateCountAll ns) s
  | [], _, _, _, s, hs => by
    rw [fragmentAll] at hs
    cases hs
  | [n], r, base, out, s, hs => by
    rw [fragmentAll] at hs
    rw [stateCountAll, stateCountAll, Nat.add_zero]
    exact inner_fragment n r base out s hs
  | n :: m :: ns, r, base, out, s, hs => by
    have hm := stateCountAll_pos m ns
    rw [fragmentAll] at hs
    rw [stateCountAll]
    rcases List.mem_append.1 hs with hs | hs
    · exact (inner_fragment n r _ _ s hs).mono (by omega) (by omega)
        (within_silent (by omega) (by omega))
    · exact (inner_fragmentAll (m :: ns) r _ _ s hs).mono (by omega) (by omega) fun _ => .inl

end

end PatternAutomata.Nfa
