import PatternAutomata.Proofs.Liveness
import PatternAutomata.Proofs.Surrogates
import PatternAutomata.Proofs.Which

/-!
When a matcher is valid. It is valid for as long as there is a state for what it was given. Such a
state may have no way on to an accepting one, but not if every set in the patterns is populated:
then a matcher is valid just as long as what it was given can still be part of a match.
-/

set_option autoImplicit false

namespace PatternAutomata

namespace Node

/-- Some points that a matcher can be given complete the word to one that a pattern accepts. -/
def Viable (nodes : List Node) (w : List ℤ) : Prop :=
  ∃ v, (∀ p ∈ v, Feedable p) ∧ (accepting nodes (w ++ v)).Nonempty

end Node

open Node (Feedable Populated Viable feedable_endOfInput feedable_iff feedable_ofChar)

namespace Matcher

inductive Input
  | piece (text : String) (start stop : ℕ)
  | endOfInput

/-- The points that are given; none, if the ends of a piece are not boundaries in its text. -/
def Input.points : Input → List ℤ
  | piece text start stop =>
    match slice text.toList start stop with
    | .ok cs => cs.map Point.ofChar
    | .error _ => []
  | endOfInput => [Point.endOfInput]

/-- A feed that breaks the rules changes nothing. -/
def give (p : Program) (m : Matcher) : Input → Matcher
  | .piece text start stop =>
    match m.feed p text start stop false with
    | .ok m' => m'
    | .error _ => m
  | .endOfInput => m.finish p

def giveAll (p : Program) (m : Matcher) (inputs : List Input) : Matcher := inputs.foldl (give p) m

theorem Input.feedable (x : Input) : ∀ p ∈ x.points, Feedable p := by
  intro p hp
  cases x with
  | piece text start stop =>
    rw [points] at hp
    split at hp
    case h_1 cs _ =>
      obtain ⟨c, -, rfl⟩ := List.mem_map.1 hp
      exact feedable_ofChar c
    case h_2 => cases hp
  | endOfInput =>
    obtain rfl := List.mem_singleton.1 hp
    exact feedable_endOfInput

theorem feedable_points (inputs : List Input) :
    ∀ p ∈ inputs.flatMap Input.points, Feedable p := by
  intro p hp
  obtain ⟨x, -, hx⟩ := List.mem_flatMap.1 hp
  exact x.feedable p hx

theorem points_all (text : String) :
    (Input.piece text 0 text.utf8ByteSize).points = text.toList.map Point.ofChar := by
  rw [Input.points, slice_eq_ok (Offset.between_all text)]

theorem exists_inputs {w : List ℤ} (hw : ∀ p ∈ w, Feedable p) :
    ∃ inputs : List Input, inputs.flatMap Input.points = w := by
  induction w with
  | nil => exact ⟨[], rfl⟩
  | cons p w ih =>
    obtain ⟨hp, hw⟩ := List.forall_mem_cons.1 hw
    obtain ⟨inputs, rfl⟩ := ih hw
    rcases hp with rfl | hp
    · exact ⟨.endOfInput :: inputs, rfl⟩
    · obtain ⟨c, hc⟩ := Option.isSome_iff_exists.1 hp
      refine ⟨.piece (String.ofList [c]) 0 (String.ofList [c]).utf8ByteSize :: inputs, ?_⟩
      rw [List.flatMap_cons, points_all, String.toList_ofList, ← Point.ofChar_of_char? hc]
      rfl

section

variable {d : Dfa} (hd : d.InRange) (accelerate : Bool) {w : List ℤ} {m : Matcher}

include hd

theorem Given.give (h : Given d w m) (x : Input) :
    Given d (w ++ x.points) (m.give (.ofDfa d accelerate) x) := by
  cases x with
  | piece text start stop =>
    rw [Matcher.give, Matcher.feed, Input.points]
    cases slice text.toList start stop with
    | ok cs => exact h.feedChars hd accelerate start cs
    | error e =>
      rw [List.append_nil]
      exact h
  | endOfInput => exact h.finish hd accelerate

theorem Given.giveAll (h : Given d w m) (inputs : List Input) :
    Given d (w ++ inputs.flatMap Input.points) (m.giveAll (.ofDfa d accelerate) inputs) := by
  induction inputs generalizing w m with
  | nil =>
    rw [List.flatMap_nil, List.append_nil]
    exact h
  | cons x inputs ih =>
    rw [List.flatMap_cons, ← List.append_assoc]
    exact ih (h.give hd accelerate x)

end

end Matcher

namespace Program

def next? (p : Program) (id : ℕ) (point : ℤ) : Option ℕ :=
  match p.act id point with
  | .fail => none
  | .goto next _ _ => some next

def run? (p : Program) (id : ℕ) (w : List ℤ) : Option ℕ := w.foldlM p.next? id

/-- Some characters and ends of input lead from the state to a terminal one. -/
def LeadsOn (p : Program) (id : ℕ) : Prop :=
  ∃ v last, (∀ x ∈ v, Feedable x) ∧ p.run? id v = some last ∧ p.isTerminal last = true

/-- Every state that characters and ends of input lead to has a way on to a terminal one. -/
def CoAccessible (p : Program) : Prop :=
  ∀ w id, (∀ x ∈ w, Feedable x) → p.run? start w = some id → p.LeadsOn id

theorem run?_append (p : Program) (id : ℕ) (v w : List ℤ) :
    p.run? id (v ++ w) = (p.run? id v).bind fun id => p.run? id w := List.foldlM_append

section

variable {d : Dfa} (hd : d.InRange) (accelerate : Bool)

include hd

theorem next?_ofDfa {q : ℕ} (hq : q < d.size) {p : ℤ} (hp : Point.InDomain p) :
    (ofDfa d accelerate).next? (d.rank q) p = (d.next? q p).map d.rank := by
  rw [next?, Dfa.act_ofDfa hd accelerate (Array.getElem?_eq_getElem hq) hp, Dfa.next?]
  cases d.transition? q p <;> rfl

theorem run?_ofDfa {q : ℕ} (hq : q < d.size) {w : List ℤ} (hw : ∀ p ∈ w, Feedable p) :
    (ofDfa d accelerate).run? (d.rank q) w = (d.run? q w).map d.rank := by
  induction w generalizing q with
  | nil => rfl
  | cons p w ih =>
    obtain ⟨hp, hw⟩ := List.forall_mem_cons.1 hw
    have hnext := next?_ofDfa hd accelerate hq (feedable_iff.1 hp).1
    rw [run?, List.foldlM_cons, hnext, Dfa.run?, List.foldlM_cons]
    cases hr : d.next? q p with
    | none => rfl
    | some r => exact ih (hd.next?_lt hr) hw

theorem run?_start_ofDfa {w : List ℤ} (hw : ∀ p ∈ w, Feedable p) :
    (ofDfa d accelerate).run? start w = (d.run? Dfa.start w).map d.rank := by
  have hrun := run?_ofDfa hd accelerate hd.start hw
  rw [Dfa.rank_start hd.start] at hrun
  exact hrun

end

section

variable {nodes : List Node} {limit : Option ℕ} {d : Dfa} (hc : ∀ n ∈ nodes, Nfa.Counted n)
  (hd : (Nfa.ofNodes nodes).determinize limit = .ok d) (accelerate : Bool) {w : List ℤ}

include hc hd

/-- The words that a pattern accepts are those that lead to a terminal state. -/
theorem accepting_nonempty_iff (hw : ∀ p ∈ w, Feedable p) :
    (Node.accepting nodes w).Nonempty ↔ ∃ id, (ofDfa d accelerate).run? start w = some id ∧
      (ofDfa d accelerate).isTerminal id = true := by
  have hrange := Subset.inRange_of_determinize hd
  have hreported := Subset.reported_accepting_iff hc hd w
  rw [run?_start_ofDfa hrange accelerate hw]
  have hterminal : ∀ q, d.run? Dfa.start w = some q →
      (ofDfa d accelerate).isTerminal (d.rank q) = (d.reported q).isSome := by
    intro q hq
    have hlt := hrange.run?_lt hrange.start hq
    exact Dfa.isTerminal_ofDfa accelerate (Array.getElem?_eq_getElem hlt)
  constructor
  · intro hmem
    have hleast := (hreported _).2 ⟨Nat.sInf_mem hmem, fun _ hj => Nat.sInf_le hj⟩
    obtain ⟨q, hq, hi⟩ := Option.bind_eq_some_iff.1 hleast
    refine ⟨d.rank q, ?_, ?_⟩
    · rw [hq, Option.map_some]
    · rw [hterminal q hq, hi, Option.isSome_some]
  · rintro ⟨id, hid, hlast⟩
    obtain ⟨q, hq, rfl⟩ := Option.map_eq_some_iff.1 hid
    rw [hterminal q hq] at hlast
    obtain ⟨i, hi⟩ := Option.isSome_iff_exists.1 hlast
    rw [hq, Option.bind_some] at hreported
    exact ⟨i, ((hreported i).1 hi).1⟩

theorem viable_iff (hw : ∀ p ∈ w, Feedable p) : Viable nodes w ↔
    ∃ id, (ofDfa d accelerate).run? start w = some id ∧ (ofDfa d accelerate).LeadsOn id := by
  have hterminal : ∀ v, (∀ p ∈ v, Feedable p) → ((Node.accepting nodes (w ++ v)).Nonempty ↔
      ∃ last, (ofDfa d accelerate).run? start (w ++ v) = some last ∧
        (ofDfa d accelerate).isTerminal last = true) := by
    intro v hv
    exact accepting_nonempty_iff hc hd accelerate (List.forall_mem_append.2 ⟨hw, hv⟩)
  constructor
  · rintro ⟨v, hv, haccepted⟩
    obtain ⟨last, hlast, ht⟩ := (hterminal v hv).1 haccepted
    rw [run?_append] at hlast
    obtain ⟨id, hid, hrest⟩ := Option.bind_eq_some_iff.1 hlast
    exact ⟨id, hid, v, last, hv, hrest, ht⟩
  · rintro ⟨id, hid, v, last, hv, hrest, ht⟩
    refine ⟨v, hv, (hterminal v hv).2 ⟨last, ?_, ht⟩⟩
    rw [run?_append, hid, Option.bind_some, hrest]

theorem leadsOn_iff_viable (hw : ∀ p ∈ w, Feedable p) {id : ℕ}
    (hid : (ofDfa d accelerate).run? start w = some id) :
    (ofDfa d accelerate).LeadsOn id ↔ Viable nodes w := by
  rw [viable_iff hc hd accelerate hw, hid]
  constructor
  · intro hleads
    exact ⟨id, rfl, hleads⟩
  · rintro ⟨_, ⟨⟩, hleads⟩
    exact hleads

omit hc in
theorem isValid_giveAll_iff (inputs : List Matcher.Input) :
    (Matcher.new.giveAll (ofDfa d accelerate) inputs).isValid = true ↔
      ∃ id, (ofDfa d accelerate).run? start (inputs.flatMap Matcher.Input.points) = some id := by
  have hrange := Subset.inRange_of_determinize hd
  have hgiven := (Matcher.given_new hrange).giveAll hrange accelerate inputs
  rw [List.nil_append] at hgiven
  rw [hgiven.isValid_iff, run?_start_ofDfa hrange accelerate (Matcher.feedable_points inputs)]
  simp only [← Option.isSome_iff_exists, Option.isSome_map]

/-- If every set is populated, what leads to a state leads on from there. -/
theorem viable_of_populated (hne : nodes ≠ []) (hp : ∀ n ∈ nodes, Populated n) {q : ℕ}
    (hq : d.run? Dfa.start w = some q) : Viable nodes w := by
  obtain ⟨keys, hr⟩ := Subset.exists_keys hd
  rcases Subset.run_spec (Nfa.inRange_ofNodes nodes) hr w with
    ⟨hnone, -⟩ | ⟨-, -, -, -, -, j, us, hpath, rfl⟩
  · cases hq.symm.trans hnone
  · have hrange := Nfa.inRange_ofNodes nodes
    obtain ⟨ts, k, hts, hf, hk⟩ := Nfa.live_ofNodes hp hne (hpath.lt_size hrange hrange.start)
    obtain ⟨i, hi⟩ := Option.isSome_iff_exists.1 hk
    refine ⟨Nfa.pointsOf ts, hf, i, (Nfa.mem_accepting_iff hc).2 ⟨k, ⟨us ++ ts, ?_, ?_⟩, hi⟩⟩
    · exact Nfa.Path.append hpath hts
    · exact Nfa.pointsOf_append us ts

end

end Program

namespace Builder

theorem ne_nil_of_ofNodes {b : Builder} {nodes : List Node} {p : Program}
    (h : b.ofNodes nodes = .ok p) : nodes ≠ [] := by
  obtain ⟨a, ha, -⟩ := ok_of_bind h
  exact (Nfa.build_eq_ok (ok_of_mapError ha)).2.1

/-- A matcher is valid at least as long as what it was given can still be part of a match, and just
as long if and only if every state has a way on. If every set is populated, every state has. -/
theorem isValid_exact {b : Builder} {nodes : List Node} {p : Program}
    (h : b.ofNodes nodes = .ok p) :
    (∀ inputs, Viable nodes (inputs.flatMap Matcher.Input.points) →
      (Matcher.new.giveAll p inputs).isValid = true) ∧
    ((∀ inputs, (Matcher.new.giveAll p inputs).isValid = true ↔
      Viable nodes (inputs.flatMap Matcher.Input.points)) ↔ p.CoAccessible) ∧
    ((∀ n ∈ nodes, Populated n) → p.CoAccessible) := by
  have hne := ne_nil_of_ofNodes h
  obtain ⟨hc, d, hd, rfl⟩ := ofNodes_eq_ok h
  have hrange := Subset.inRange_of_determinize hd
  have hvalid := Program.isValid_giveAll_iff hd b.options.accelerates
  refine ⟨fun inputs hv => ?_, ⟨fun hexact w id hw hid => ?_, fun hleads inputs => ?_⟩,
    fun hp w id hw hid => ?_⟩
  · have hw := Matcher.feedable_points inputs
    obtain ⟨id, hid, -⟩ := (Program.viable_iff hc hd b.options.accelerates hw).1 hv
    exact (hvalid inputs).2 ⟨id, hid⟩
  · obtain ⟨inputs, rfl⟩ := Matcher.exists_inputs hw
    have hv := (hexact inputs).1 ((hvalid inputs).2 ⟨id, hid⟩)
    exact (Program.leadsOn_iff_viable hc hd b.options.accelerates hw hid).2 hv
  · have hw := Matcher.feedable_points inputs
    rw [hvalid, Program.viable_iff hc hd b.options.accelerates hw]
    constructor
    · rintro ⟨id, hid⟩
      exact ⟨id, hid, hleads _ id hw hid⟩
    · rintro ⟨id, hid, -⟩
      exact ⟨id, hid⟩
  · have hrun := Program.run?_start_ofDfa hrange b.options.accelerates hw
    obtain ⟨q, hq, -⟩ := Option.map_eq_some_iff.1 (hrun.symm.trans hid)
    have hv := Program.viable_of_populated hc hd hne hp hq
    exact (Program.leadsOn_iff_viable hc hd b.options.accelerates hw hid).2 hv

/-- Before a set that holds nothing a matcher is valid still, though no match can come of it. -/
theorem valid_before_nothing :
    ∃ p, new.ofNodes [.concat [.text ['a'], .set PointSet.empty]] = .ok p ∧
      (Matcher.new.giveAll p [.piece "a" 0 1]).isValid = true ∧
      ¬ Viable [.concat [.text ['a'], .set PointSet.empty]]
        ([.piece "a" 0 1].flatMap Matcher.Input.points) := by
  have hrun : (new.ofNodes [.concat [.text ['a'], .set PointSet.empty]]).toOption.map
      (fun p => (Matcher.new.giveAll p [.piece "a" 0 1]).isValid) = some true := by
    decide +kernel
  obtain ⟨p, hp, hvalid⟩ := Option.map_eq_some_iff.1 hrun
  refine ⟨p, ok_of_toOption hp, hvalid, ?_⟩
  rintro ⟨v, -, i, n, hn, u, hu, -⟩
  obtain rfl := List.mem_singleton.1 (List.mem_of_getElem? hn)
  rw [Node.words, Node.wordsAll, Node.wordsAll] at hu
  obtain ⟨_, -, _, ⟨_, ⟨q, hq, -⟩, -⟩, -⟩ := hu
  rw [PointSet.contains_empty] at hq
  cases hq

/-- A matcher is valid exactly as long as it may be, here through an end of input. -/
theorem isValid_exact_end :
    ∃ p, new.ofNodes [.text ['a'], .concat [.text ['b'], .endOfInput]] = .ok p ∧
      p.CoAccessible ∧
      (Matcher.new.giveAll p [.piece "b" 0 1, .endOfInput]).isValid = true ∧
      Viable [.text ['a'], .concat [.text ['b'], .endOfInput]]
        ([.piece "b" 0 1, .endOfInput].flatMap Matcher.Input.points) := by
  have hrun : (new.ofNodes [.text ['a'], .concat [.text ['b'], .endOfInput]]).toOption.map
      (fun p => (Matcher.new.giveAll p [.piece "b" 0 1, .endOfInput]).isValid) = some true := by
    decide +kernel
  obtain ⟨p, hp, hvalid⟩ := Option.map_eq_some_iff.1 hrun
  obtain ⟨-, hexact, hpopulated⟩ := isValid_exact (ok_of_toOption hp)
  have hleads : p.CoAccessible := hpopulated (by simp [Populated, Node.PopulatedAll])
  exact ⟨p, ok_of_toOption hp, hleads, hvalid, (hexact.2 hleads _).1 hvalid⟩

end Builder

end PatternAutomata
