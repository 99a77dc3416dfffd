import PatternAutomata.Proofs.Thompson

/-!
The automaton of several patterns. Each pattern has a block of states of its own, its fragment and
behind that its accepting state; only the start state leads into the blocks, and nothing leads out
of one.
-/

set_option autoImplicit false

namespace PatternAutomata.Nfa

open Node (consumed consumed_traces Nested nested_of_mem_traces)

structure Block (a : Nfa) (n : Node) (pattern base : ℕ) : Prop where
  body : LaidOut a.states base (fragment n false base [.silent (base + stateCount n)])
  accept : a.states[base + stateCount n]? = some (acceptState pattern (base + stateCount n))

theorem block_of_patternStates {a : Nfa} {ns : List Node} {pattern base : ℕ}
    (h : LaidOut a.states base (patternStates ns pattern base)) {i : ℕ} {n : Node}
    (hi : ns[i]? = some n) :
    ∃ b, (entryPoints ns base)[i]? = some b ∧ base ≤ b ∧ Block a n (pattern + i) b := by
  induction ns generalizing pattern base i with
  | nil => cases hi
  | cons m ns ih =>
    rw [patternStates, laidOut_append, length_fragment, laidOut_cons] at h
    obtain ⟨h1, h2, h3⟩ := h
    cases i with
    | zero =>
      cases hi
      exact ⟨base, rfl, le_rfl, h1, h2⟩
    | succ i =>
      obtain ⟨b, hb, hle, hblock⟩ := ih h3 hi
      refine ⟨b, hb, by omega, ?_⟩
      rw [Nat.add_assoc, Nat.add_comm 1 i] at hblock
      exact hblock

theorem locate_patternStates {ns : List Node} {pattern base k : ℕ} {s : State}
    (h : (patternStates ns pattern base)[k]? = some s) :
    ∃ i n b, ns[i]? = some n ∧ (entryPoints ns base)[i]? = some b ∧ b ≤ base + k ∧
      (base + k < b + stateCount n ∧ Inner [.silent (b + stateCount n)] b (b + stateCount n) s ∨
        base + k = b + stateCount n ∧ s = acceptState (pattern + i) (base + k)) := by
  induction ns generalizing pattern base k with
  | nil => cases h
  | cons m ns ih =>
    rw [patternStates] at h
    by_cases hk : k < stateCount m
    · rw [List.getElem?_append_left (by rw [length_fragment]; exact hk)] at h
      have hs := inner_fragment m false base _ s (List.mem_of_getElem? h)
      exact ⟨0, m, base, rfl, rfl, Nat.le_add_right base k, .inl ⟨by omega, hs⟩⟩
    · rw [List.getElem?_append_right (by rw [length_fragment]; omega), length_fragment] at h
      obtain ⟨d, rfl⟩ := Nat.exists_eq_add_of_le (Nat.le_of_not_lt hk)
      rw [Nat.add_sub_cancel_left] at h
      cases d with
      | zero =>
        cases h
        exact ⟨0, m, base, rfl, rfl, Nat.le_add_right base _, .inr ⟨rfl, rfl⟩⟩
      | succ d =>
        obtain ⟨i, n, b, hi, hb, hle, hs⟩ := ih h
        have e : base + stateCount m + 1 + d = base + (stateCount m + (d + 1)) := by omega
        rw [e] at hle hs
        refine ⟨i + 1, n, b, hi, hb, hle, ?_⟩
        rw [Nat.add_assoc, Nat.add_comm 1 i] at hs
        exact hs

/-- The pattern whose block a state is in, if the first block is at `base`. -/
def ownerFrom : List Node → (pattern base id : ℕ) → ℕ
  | [], pattern, _, _ => pattern
  | n :: ns, pattern, base, id =>
    if id ≤ base + stateCount n then pattern
    else ownerFrom ns (pattern + 1) (base + stateCount n + 1) id

theorem ownerFrom_eq {ns : List Node} {base i b id : ℕ} {n : Node} (pattern : ℕ)
    (hi : ns[i]? = some n) (hb : (entryPoints ns base)[i]? = some b) :
    base ≤ b ∧ (b ≤ id → id ≤ b + stateCount n → ownerFrom ns pattern base id = pattern + i) := by
  induction ns generalizing pattern base i with
  | nil => cases hi
  | cons m ns ih =>
    rw [ownerFrom]
    cases i with
    | zero =>
      cases hi
      cases hb
      exact ⟨le_rfl, fun _ h => if_pos h⟩
    | succ i =>
      obtain ⟨h1, h2⟩ := ih (pattern + 1) hi hb
      refine ⟨by omega, fun h3 h4 => ?_⟩
      rw [if_neg (by omega), h2 h3 h4]
      omega

theorem length_entryPoints (ns : List Node) (base : ℕ) :
    (entryPoints ns base).length = ns.length := by
  induction ns generalizing base with
  | nil => rfl
  | cons n ns ih => rw [entryPoints, List.length_cons, List.length_cons, ih]

structure Placed (nodes : List Node) (n : Node) (i b : ℕ) : Prop where
  node : nodes[i]? = some n
  entry : (entryPoints nodes 1)[i]? = some b
  pos : start < b
  block : Block (ofNodes nodes) n i b

/-- Each pattern has states of its own, which only the start state leads into. -/
structure Isolated (a : Nfa) (owner : ℕ → ℕ) : Prop where
  enter : ∀ i t, (a.transitions start)[i]? = some t → t.target ≠ start ∧ owner t.target = i
  stay : ∀ id, id ≠ start → ∀ t ∈ a.transitions id,
    t.target ≠ start ∧ owner t.target = owner id
  accept : ∀ id i, a.domain? id = some i → owner id = i

section

variable {nodes : List Node} {i : ℕ} {n : Node}

theorem states_start (nodes : List Node) :
    (ofNodes nodes).states[start]? = some ⟨none, (entryPoints nodes 1).map .silent⟩ := by
  simp only [ofNodes, start, List.getElem?_toArray, List.getElem?_cons_zero]

theorem domain?_start (nodes : List Node) : (ofNodes nodes).domain? start = none :=
  domain?_of_getElem? (states_start nodes)

theorem transitions_start (nodes : List Node) :
    (ofNodes nodes).transitions start = (entryPoints nodes 1).map .silent :=
  transitions_of_getElem? (states_start nodes)

theorem exists_placed (hi : nodes[i]? = some n) : ∃ b, Placed nodes n i b := by
  have h : LaidOut (ofNodes nodes).states 0 _ := laidOut_toArray _
  obtain ⟨b, hb, hle, hblock⟩ := block_of_patternStates (laidOut_cons.1 h).2 hi
  rw [Nat.zero_add] at hblock
  exact ⟨b, hi, hb, hle, hblock⟩

theorem placed_of_entry {b : ℕ} (hb : (entryPoints nodes 1)[i]? = some b) :
    ∃ n, Placed nodes n i b := by
  obtain ⟨hlt, -⟩ := List.getElem?_eq_some_iff.1 hb
  rw [length_entryPoints] at hlt
  obtain ⟨b', hp⟩ := exists_placed (List.getElem?_eq_getElem hlt)
  cases hb.symm.trans hp.entry
  exact ⟨_, hp⟩

theorem locate {id : ℕ} {s : State} (h : (ofNodes nodes).states[id]? = some s) (h0 : id ≠ start) :
    ∃ i n b, Placed nodes n i b ∧ b ≤ id ∧
      (id < b + stateCount n ∧ Inner [.silent (b + stateCount n)] b (b + stateCount n) s ∨
        id = b + stateCount n ∧ s = acceptState i id) := by
  obtain ⟨k, rfl⟩ := Nat.exists_eq_succ_of_ne_zero h0
  rw [ofNodes, List.getElem?_toArray, List.getElem?_cons_succ] at h
  obtain ⟨i, n, b, hi, hb, hle, hs⟩ := locate_patternStates h
  obtain ⟨m, hp⟩ := placed_of_entry hb
  cases hi.symm.trans hp.node
  rw [Nat.zero_add, Nat.add_comm 1 k] at hs
  exact ⟨i, n, b, hp, by omega, hs⟩

theorem target_mem_block {id : ℕ} {t : Transition} (h0 : id ≠ start)
    (ht : t ∈ (ofNodes nodes).transitions id) :
    ∃ i n b, Placed nodes n i b ∧ b ≤ id ∧ id ≤ b + stateCount n ∧
      b ≤ t.target ∧ t.target ≤ b + stateCount n := by
  rw [transitions] at ht
  split at ht
  case h_2 => cases ht
  case h_1 s hs =>
    obtain ⟨i, n, b, hp, hle, ⟨hlt, hin⟩ | ⟨rfl, rfl⟩⟩ := locate hs h0
    · refine ⟨i, n, b, hp, hle, hlt.le, ?_⟩
      rcases hin.2 t ht with ht | ht
      · obtain rfl := List.mem_singleton.1 ht
        exact ⟨Nat.le_add_right b _, le_rfl⟩
      · exact ⟨ht.1, ht.2.le⟩
    · obtain rfl := List.mem_singleton.1 ht
      exact ⟨i, n, b, hp, hle, le_rfl, hle, le_rfl⟩

structure InRange (a : Nfa) : Prop where
  start : start < a.size
  target : ∀ id, ∀ t ∈ a.transitions id, t.target < a.size

theorem Placed.lt_size {b : ℕ} (h : Placed nodes n i b) : b + stateCount n < (ofNodes nodes).size :=
  (Array.getElem?_eq_some_iff.1 h.block.accept).1

theorem inRange_ofNodes (nodes : List Node) : InRange (ofNodes nodes) where
  start := (Array.getElem?_eq_some_iff.1 (states_start nodes)).1
  target id t ht := by
    by_cases h0 : id = Nfa.start
    · rw [h0, transitions_start] at ht
      obtain ⟨b, hb, rfl⟩ := List.mem_map.1 ht
      obtain ⟨i, hb⟩ := List.mem_iff_getElem?.1 hb
      obtain ⟨n, hp⟩ := placed_of_entry hb
      exact (Nat.le_add_right b _).trans_lt hp.lt_size
    · obtain ⟨i, n, b, hp, -, -, -, hle⟩ := target_mem_block h0 ht
      exact hle.trans_lt hp.lt_size

theorem placed_of_domain? {id : ℕ} (hd : (ofNodes nodes).domain? id = some i) :
    ∃ n b, Placed nodes n i b ∧ id = b + stateCount n := by
  have h0 : id ≠ start := by
    rintro rfl
    rw [domain?_start] at hd
    cases hd
  obtain ⟨s, hs, hd⟩ := Option.bind_eq_some_iff.1 hd
  obtain ⟨i', n, b, hp, -, ⟨-, hin⟩ | ⟨hid, rfl⟩⟩ := locate hs h0
  · rw [hin.1] at hd
    cases hd
  · cases hd
    exact ⟨n, b, hp, hid⟩

theorem Placed.domain?_iff {b : ℕ} (h : Placed nodes n i b) (id : ℕ) :
    (ofNodes nodes).domain? id = some i ↔ id = b + stateCount n := by
  constructor
  · intro hd
    obtain ⟨n', b', hp, rfl⟩ := placed_of_domain? hd
    cases h.node.symm.trans hp.node
    cases h.entry.symm.trans hp.entry
    rfl
  · rintro rfl
    exact domain?_of_getElem? h.block.accept

theorem Placed.owner {b id : ℕ} (h : Placed nodes n i b) (h1 : b ≤ id)
    (h2 : id ≤ b + stateCount n) : ownerFrom nodes 0 1 id = i := by
  rw [(ownerFrom_eq 0 h.node h.entry).2 h1 h2, Nat.zero_add]

theorem isolated_ofNodes (nodes : List Node) : Isolated (ofNodes nodes) (ownerFrom nodes 0 1) where
  enter i t ht := by
    rw [transitions_start, List.getElem?_map] at ht
    obtain ⟨b, hb, rfl⟩ := Option.map_eq_some_iff.1 ht
    obtain ⟨n, hp⟩ := placed_of_entry hb
    exact ⟨hp.pos.ne', hp.owner le_rfl (Nat.le_add_right b _)⟩
  stay id h0 t ht := by
    obtain ⟨i, n, b, hp, h1, h2, h3, h4⟩ := target_mem_block h0 ht
    refine ⟨(hp.pos.trans_le h3).ne', ?_⟩
    rw [hp.owner h1 h2, hp.owner h3 h4]
  accept id i hd := by
    obtain ⟨n, b, hp, rfl⟩ := placed_of_domain? hd
    exact hp.owner (Nat.le_add_right b _) le_rfl

theorem walk_accept {a : Nfa} {allowed : ℕ → Transition → Prop} {id pattern k i j : ℕ}
    {ts : List Token} (hs : a.states[id]? = some (acceptState pattern id))
    (hw : Walk a allowed k i ts j) (hi : i = id) :
    j = id ∧ ts = List.replicate k (.point Point.endOfInput false) := by
  induction hw with
  | refl i => exact ⟨hi, rfl⟩
  | step ht ha hx _ ih =>
    subst hi
    rw [transitions_of_getElem? hs] at ht
    obtain rfl := List.mem_singleton.1 ht
    obtain ⟨h1, h2⟩ := ih rfl
    have hx : _ ∈ (Transition.consuming .endOfInput false _).emitted := hx
    rw [emitted_singleton PointSet.contains_endOfInput] at hx
    obtain rfl := hx
    rw [h2]
    exact ⟨h1, rfl⟩

/-- A path from the start to an accepting state is a trace of its pattern, followed by what is met
on the way from that state back to it. -/
theorem Placed.path_iff {allowed : ℕ → Transition → Prop} {b : ℕ} {ts : List Token}
    (h : Placed nodes n i b) (hc : ∀ n ∈ nodes, Counted n)
    (hf : ∀ i t, (ofNodes nodes).domain? i = none → allowed i t) :
    Path (ofNodes nodes) allowed start ts (b + stateCount n) ↔
      ∃ xs ∈ n.traces false, ∃ ys, ts = xs ++ ys ∧
        Path (ofNodes nodes) allowed (b + stateCount n) ys (b + stateCount n) := by
  have hd := (h.domain?_iff _).2 rfl
  have hj : ((ofNodes nodes).domain? (b + stateCount n)).isSome := by
    rw [hd]
    rfl
  have hpass : ∀ {m i b}, Placed nodes m i b → Passage (ofNodes nodes) allowed _ [.silent b]
      [.silent (b + stateCount m)] (m.traces false) := fun hp =>
    passage_fragment hj hf _ false _ _ (hc _ (List.mem_of_getElem? hp.node)) hp.block.body
  constructor
  · intro hpath
    obtain ⟨k, hstart⟩ := hpath.walk
    obtain ⟨m, -, t, ht, us, hu, vs, rfl, hw⟩ := hstart.leaves hj (states_start nodes)
    obtain ⟨b', hb', rfl⟩ := List.mem_map.1 ht
    obtain ⟨i', hb'⟩ := List.mem_iff_getElem?.1 hb'
    obtain ⟨n', hp⟩ := placed_of_entry hb'
    rw [emitted_silent] at hu
    obtain rfl := hu
    obtain ⟨_, -, xs, hx, ys, rfl, hl⟩ := (hpass hp).sound (leaves_silent.2 hw)
    have hw := leaves_silent.1 hl
    -- The path must have come through the block of the pattern itself.
    obtain ⟨he, -⟩ := walk_accept hp.block.accept hw rfl
    have hd' := (hp.domain?_iff _).2 rfl
    rw [he] at hd
    cases hd.symm.trans hd'
    cases h.node.symm.trans hp.node
    cases h.entry.symm.trans hp.entry
    exact ⟨xs, hx, ys, rfl, hw.path⟩
  · rintro ⟨xs, hx, ys, rfl, hp⟩
    obtain ⟨k, hw⟩ := hp.walk
    obtain ⟨m, hl⟩ := (hpass h).complete hx (leaves_silent.2 hw)
    have hl : Leaves (ofNodes nodes) allowed (b + stateCount n)
        ((entryPoints nodes 1).map .silent) m (xs ++ ys) := by
      obtain ⟨t, ht, rest⟩ := hl
      obtain rfl := List.mem_singleton.1 ht
      exact ⟨_, List.mem_map_of_mem (List.mem_of_getElem? h.entry), rest⟩
    exact (hl.walk hf (states_start nodes)).path

def ExceptLoop (accept id : ℕ) (t : Transition) : Prop :=
  ¬ (id = accept ∧ t = .consuming .endOfInput false accept)

theorem path_accept_iff {a : Nfa} {id pattern : ℕ} {ts : List Token}
    (hs : a.states[id]? = some (acceptState pattern id)) :
    AnyPath a id ts id ↔ ∃ k, ts = List.replicate k (.point Point.endOfInput false) := by
  constructor
  · intro h
    obtain ⟨k, hw⟩ := h.walk
    exact ⟨k, (walk_accept hs hw rfl).2⟩
  · rintro ⟨k, rfl⟩
    induction k with
    | zero => exact .refl id
    | succ k ih =>
      have ht : .consuming .endOfInput false id ∈ a.transitions id := by
        rw [transitions_of_getElem? hs]
        exact List.mem_singleton_self _
      exact .step ht trivial
        (.consume rfl ((PointSet.contains_endOfInput _).2 rfl)) ih

theorem path_exceptLoop_iff {a : Nfa} {id pattern : ℕ} {ts : List Token}
    (hs : a.states[id]? = some (acceptState pattern id)) :
    Path a (ExceptLoop id) id ts id ↔ ts = [] := by
  constructor
  · intro h
    cases h with
    | refl => rfl
    | step ht ha hx hp =>
      rw [transitions_of_getElem? hs] at ht
      exact absurd ⟨rfl, List.mem_singleton.1 ht⟩ ha
  · rintro rfl
    exact .refl id

theorem pointsOf_replicate (k : ℕ) (p : ℤ) (r : Bool) :
    pointsOf (List.replicate k (.point p r)) = List.replicate k p := by
  induction k with
  | zero => rfl
  | succ k ih => exact congrArg (p :: ·) ih

theorem nested_replicate (k : ℕ) (p : ℤ) (r : Bool) :
    Nested (List.replicate k (.point p r)) := by
  induction k with
  | zero => exact .nil
  | succ k ih => exact .point p r ih

theorem Placed.anyPath_iff {b : ℕ} {ts : List Token} (h : Placed nodes n i b)
    (hc : ∀ n ∈ nodes, Counted n) :
    AnyPath (ofNodes nodes) start ts (b + stateCount n) ↔
      ∃ xs ∈ n.traces false, ∃ k,
        ts = xs ++ List.replicate k (.point Point.endOfInput false) := by
  rw [AnyPath, h.path_iff hc fun _ _ _ => trivial]
  constructor
  · rintro ⟨xs, hx, ys, rfl, hp⟩
    obtain ⟨k, rfl⟩ := (path_accept_iff h.block.accept).1 hp
    exact ⟨xs, hx, k, rfl⟩
  · rintro ⟨xs, hx, k, rfl⟩
    exact ⟨xs, hx, _, rfl, (path_accept_iff h.block.accept).2 ⟨k, rfl⟩⟩

theorem Placed.exceptLoop_iff {b : ℕ} {ts : List Token} (h : Placed nodes n i b)
    (hc : ∀ n ∈ nodes, Counted n) :
    Path (ofNodes nodes) (ExceptLoop (b + stateCount n)) start ts (b + stateCount n) ↔
      ts ∈ n.traces false := by
  have hf : ∀ id t, (ofNodes nodes).domain? id = none → ExceptLoop (b + stateCount n) id t := by
    rintro id t hd ⟨rfl, -⟩
    rw [(h.domain?_iff _).2 rfl] at hd
    cases hd
  rw [h.path_iff hc hf]
  constructor
  · rintro ⟨xs, hx, ys, rfl, hp⟩
    obtain rfl := (path_exceptLoop_iff h.block.accept).1 hp
    rw [List.append_nil]
    exact hx
  · intro hx
    exact ⟨ts, hx, [], (List.append_nil ts).symm, .refl _⟩

theorem Placed.reachedOn_iff {b : ℕ} {w : List ℤ} (h : Placed nodes n i b)
    (hc : ∀ n ∈ nodes, Counted n) :
    ReachedOn (ofNodes nodes) w (b + stateCount n) ↔ w ∈ n.closedWords := by
  have hwords : ∀ u, u ∈ n.words ↔ ∃ xs ∈ n.traces false, pointsOf xs = u := by
    intro u
    rw [← consumed_traces n false]
    exact Iff.rfl
  constructor
  · rintro ⟨ts, hp, rfl⟩
    obtain ⟨xs, hx, k, rfl⟩ := (h.anyPath_iff hc).1 hp
    refine ⟨pointsOf xs, (hwords _).2 ⟨xs, hx, rfl⟩, k, ?_⟩
    rw [pointsOf_append, pointsOf_replicate]
  · rintro ⟨u, hu, k, rfl⟩
    obtain ⟨xs, hx, rfl⟩ := (hwords u).1 hu
    refine ⟨_, (h.anyPath_iff hc).2 ⟨xs, hx, k, rfl⟩, ?_⟩
    rw [pointsOf_append, pointsOf_replicate]

theorem mem_accepting_iff {w : List ℤ} (hc : ∀ n ∈ nodes, Counted n) :
    i ∈ Node.accepting nodes w ↔
      ∃ j, ReachedOn (ofNodes nodes) w j ∧ (ofNodes nodes).domain? j = some i := by
  constructor
  · rintro ⟨n, hn, hw⟩
    obtain ⟨b, hp⟩ := exists_placed hn
    exact ⟨b + stateCount n, (hp.reachedOn_iff hc).2 hw, (hp.domain?_iff _).2 rfl⟩
  · rintro ⟨j, hj, hi⟩
    obtain ⟨n, b, hp, rfl⟩ := placed_of_domain? hi
    exact ⟨n, hp.node, (hp.reachedOn_iff hc).1 hj⟩

/-- The automaton of some patterns is exact. Over paths from the start to the accepting state of a
pattern, its loop apart, just the traces of the pattern are met. -/
theorem build_traces {limits : Limits} {nodes : List Node} {a : Nfa}
    (h : build limits nodes = .ok a) :
    (∃ owner, Isolated a owner) ∧
      ∀ i n, nodes[i]? = some n → ∃ accept,
        (∀ id, a.domain? id = some i ↔ id = accept) ∧
        (∀ ts, Path a (ExceptLoop accept) start ts accept ↔ ts ∈ n.traces false) ∧
        (∀ w, ReachedOn a w accept ↔ w ∈ n.closedWords) ∧
        ∀ ts, AnyPath a start ts accept → Nested ts := by
  obtain ⟨rfl, -, hc⟩ := build_eq_ok h
  refine ⟨⟨_, isolated_ofNodes nodes⟩, fun i n hi => ?_⟩
  obtain ⟨b, hp⟩ := exists_placed hi
  refine ⟨b + stateCount n, hp.domain?_iff, fun ts => hp.exceptLoop_iff hc,
    fun w => hp.reachedOn_iff hc, fun ts ht => ?_⟩
  obtain ⟨xs, hx, k, rfl⟩ := (hp.anyPath_iff hc).1 ht
  exact (nested_of_mem_traces n false xs hx).append (nested_replicate k _ _)

/-- Of two copies of a letter between one and two, the second is consumed reluctantly. -/
theorem build_traces_second_copy :
    ∃ a, build .unset [.repeated (.text ['a']) 1 (some 2) true] = .ok a ∧
      ∃ accept, a.domain? accept = some 0 ∧
        Path a (ExceptLoop accept) start [.point 97 false, .point 97 true] accept := by
  have hb : build .unset [.repeated (.text ['a']) 1 (some 2) true] = .ok (ofNodes _) := rfl
  obtain ⟨-, h⟩ := build_traces hb
  obtain ⟨accept, hd, ht, -⟩ := h 0 _ rfl
  refine ⟨_, hb, accept, (hd accept).2 rfl, (ht _).2 ⟨1, ?_, ?_⟩⟩
  · rintro _ ⟨⟩
    exact le_rfl
  · rw [pow_one, pow_one]
    exact ⟨_, rfl, _, rfl, rfl⟩

end

end PatternAutomata.Nfa
