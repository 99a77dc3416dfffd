import PatternAutomata.Proofs.CanonicalMaps
import PatternAutomata.Proofs.Simulation
import PatternAutomata.Proofs.StateLimit

/-!
What subset construction makes is trim: every state is one that some word leads to, words that lead
to different states can be told apart by what they lead to in the other automaton, and each state is
worked out once. The states that wait are worked out last found first, and others are found
meanwhile, so it is what is found so far that keeps these properties, from one state to the next.
-/

set_option autoImplicit false

namespace PatternAutomata

namespace Subset

/-! ### The states worked out -/

abbrev Log := List (ℕ × PointMap Dfa.Transition)

def loggedSteps (a : Nfa) (limit : ℕ) : Steps (StateT Log (Except Dfa.BuildError)) where
  outgoing keys id := liftM ((steps a limit).outgoing keys id)
  reached os scratch := liftM ((steps a limit).reached os scratch)
  keyOf scratch := liftM ((steps a limit).keyOf scratch)
  permit states := liftM ((steps a limit).permit states)
  span start stop := liftM ((steps a limit).span start stop)
  settle maps id m := do
    modify fun log => log ++ [(id, m)]
    liftM ((steps a limit).settle maps id m)

def completeLogged (a : Nfa) (limit rounds : ℕ) (p : Progress) (scratch : SparseSet) :
    StateT Log (Except Dfa.BuildError) Progress :=
  (loggedSteps a limit).complete (throw (.tooManyStates limit)) rounds p scratch

end Subset

def Nfa.determinizeLogged (a : Nfa) (limit : Option ℕ) :
    Except Dfa.BuildError (List (ℕ × PointMap Dfa.Transition) × Subset.Progress) := do
  let limit := min (limit.getD Ident.capacity) Ident.capacity
  let scratch := Subset.closure a Nfa.start (.ofCapacity a.size)
  let (_, p) ← Subset.intern a limit (Subset.keyOf a scratch) .initial
  let (p, log) ← (Subset.completeLogged a limit limit p scratch).run []
  return (log, p)

namespace Subset

open Nfa (InRange ReachedOn)

section

variable {a : Nfa} {limit rounds : ℕ} {p q : Progress} {scratch : SparseSet} {log log' : Log}

theorem intern_loggedSteps (key : List ℕ) (p : Progress) :
    (loggedSteps a limit).intern key p = liftM (intern a limit key p) := by
  rw [intern, Steps.intern, Steps.intern]
  split
  case h_1 => exact (liftM_pure _).symm
  case h_2 => simp only [loggedSteps, liftM_bind, liftM_pure]

theorem pieces_loggedSteps (os : List Outgoing) (ws : List (ℤ × ℤ)) (p : Progress)
    (scratch : SparseSet) :
    (loggedSteps a limit).pieces os ws p scratch = liftM (pieces a limit os ws p scratch) := by
  induction ws generalizing p scratch with
  | nil => exact (liftM_pure _).symm
  | cons w ws ih =>
    obtain ⟨start, stop⟩ := w
    rw [pieces, Steps.pieces, Steps.pieces]
    cases os.filter fun o => o.points.contains start with
    | nil => exact ih p scratch
    | cons o more =>
      simp only [intern_loggedSteps, ih, liftM_bind, liftM_pure]
      rfl

/-- A round takes the state that waits first, and notes what it was given. -/
theorem run_completeLogged_succ {keys : Array (List ℕ)} {index : Std.TreeMap (List ℕ) ℕ}
    {maps : Array (PointMap Dfa.Transition)} {waiting : List ℕ} {id : ℕ} :
    (completeLogged a limit (rounds + 1) ⟨keys, index, maps, id :: waiting⟩ scratch).run log =
      (do
        let os := outgoing a (keys.getD id [])
        let (found, p, scratch) ←
          pieces a limit os (Ascending.windows (cuts os)) ⟨keys, index, maps, waiting⟩ scratch
        (completeLogged a limit rounds { p with maps := p.maps.setIfInBounds id (.ofPieces found) }
          scratch).run (log ++ [(id, .ofPieces found)])) := by
  have houtgoing : ((loggedSteps a limit).outgoing keys id).run log =
      .ok (outgoing a (keys.getD id []), log) := rfl
  rw [completeLogged, Steps.complete, Steps.workOut]
  simp only [pieces_loggedSteps, bind_assoc, StateT.run_bind]
  rw [bind_of_ok houtgoing]
  cases pieces a limit (outgoing a (keys.getD id []))
    (Ascending.windows (cuts (outgoing a (keys.getD id [])))) ⟨keys, index, maps, waiting⟩
    scratch <;> rfl

theorem map_completeLogged (a : Nfa) (limit rounds : ℕ) (p : Progress) (scratch : SparseSet)
    (log : Log) : ((completeLogged a limit rounds p scratch).run log).map (·.1) =
      complete a limit rounds p scratch := by
  induction rounds generalizing p scratch log with
  | zero =>
    rw [completeLogged, Steps.complete, complete_zero]
    split <;> rfl
  | succ rounds ih =>
    obtain ⟨keys, index, maps, waiting⟩ := p
    cases waiting with
    | nil => rfl
    | cons id waiting =>
      rw [run_completeLogged_succ, complete_succ]
      dsimp only
      cases pieces a limit (outgoing a (keys.getD id []))
          (Ascending.windows (cuts (outgoing a (keys.getD id []))))
          ⟨keys, index, maps, waiting⟩ scratch with
      | error e => rfl
      | ok x => exact ih _ _ _

theorem complete_of_logged (h : (completeLogged a limit rounds p scratch).run log = .ok (q, log')) :
    complete a limit rounds p scratch = .ok q := by
  rw [← map_completeLogged a limit rounds p scratch log, h]
  rfl

end

theorem map_determinizeLogged (a : Nfa) (limit : Option ℕ) :
    (a.determinizeLogged limit).map (fun x => x.2.toDfa a) = a.determinize limit := by
  simp only [Nfa.determinizeLogged, Nfa.determinize, ← map_completeLogged _ _ _ _ _ []]
  cases intern a (min (limit.getD Ident.capacity) Ident.capacity)
      (keyOf a (closure a Nfa.start (.ofCapacity a.size))) .initial with
  | error e => rfl
  | ok x =>
    simp only [bind, Except.bind]
    cases (completeLogged a (min (limit.getD Ident.capacity) Ident.capacity)
      (min (limit.getD Ident.capacity) Ident.capacity) x.2
      (closure a Nfa.start (.ofCapacity a.size))).run [] <;> rfl

/-! ### What is found so far -/

/-- Some word leads to states of which the significant ones are in `key`. -/
def Met (a : Nfa) (key : List ℕ) : Prop :=
  ∃ w, (∀ x ∈ w, Point.InDomain x) ∧ IsKey a (ReachedOn a w) key ∧ ∃ j, ReachedOn a w j

/-- What holds between two rounds, of which those so far worked out the states in `done`: the states
stand for different sets, each of them is met, and each is done or waits, once. -/
structure Found (a : Nfa) (done : List ℕ) (p : Progress) : Prop where
  distinct : Distinct a p
  met : ∀ key ∈ p.keys.toList, Met a key
  shared : (done ++ p.waiting).Perm (List.range p.keys.size)

section

variable {a : Nfa} {limit : ℕ} {done : List ℕ} {p q : Progress} {key : List ℕ}
  {scratch scratch' : SparseSet}

theorem lt_of_significant {j : ℕ} (h : significant a j = true) : j < a.size := by
  rw [significant] at h
  split at h
  case h_1 hs => exact (Array.getElem?_eq_some_iff.1 hs).1
  case h_2 => cases h

theorem Met.isStateSet (h : Met a key) : IsStateSet a key := by
  obtain ⟨w, -, hk, -⟩ := h
  exact ⟨hk.ascending, fun j hj => lt_of_significant ((hk.mem j).1 hj).1⟩

theorem found_initial (a : Nfa) : Found a [] .initial where
  distinct := distinct_initial a
  met _ h := (List.not_mem_nil h).elim
  shared := .nil

theorem Found.add (h : Found a done p) (hkey : Met a key) (hnew : p.index[key]? = none) :
    Found a done (p.add key) := by
  have hdistinct := h.distinct.add hkey.isStateSet hnew
  obtain ⟨keys, index, maps, waiting⟩ := p
  refine ⟨hdistinct, fun key' hmem => ?_, ?_⟩
  · rw [Progress.add, Array.toList_push, List.mem_append, List.mem_singleton] at hmem
    rcases hmem with hmem | rfl
    · exact h.met key' hmem
    · exact hkey
  · rw [Progress.add, Array.size_push, List.range_succ]
    exact (List.perm_middle.trans (h.shared.cons _)).trans (List.perm_append_singleton _ _).symm

theorem Found.intern (h : Found a done p) (hkey : Met a key) {id : ℕ}
    (hi : intern a limit key p = .ok (id, q)) : Found a done q := by
  rcases intern_cases hi with ⟨id, -, hi⟩ | ⟨hnew, -, hi⟩
  · cases hi
    exact h
  · cases hi
    exact h.add hkey hnew

theorem IsKey.met_next (ha : InRange a) {w : List ℤ} (hw : ∀ x ∈ w, Point.InDomain x)
    (hk : IsKey a (ReachedOn a w) key) (hs : scratch.WellFormed) (hc : scratch.capacity = a.size)
    {start : ℤ} {o : Outgoing} {more : List Outgoing}
    (hsome : offered (outgoing a key) start = o :: more) :
    Met a (keyOf a (reached a (o :: more) scratch)) := by
  have ho : o ∈ offered (outgoing a key) start := by
    rw [hsome]
    exact List.mem_cons_self
  have hstart := PointSet.inDomain_of_contains (List.mem_filter.1 ho).2
  have hleads : Leads a (offered (outgoing a key) start)
      (keyOf a (reached a (o :: more) scratch)) := by
    rw [hsome]
    exact ⟨scratch, hs, hc, rfl⟩
  refine ⟨w ++ [start], fun x hx => ?_, hk.next ha hleads,
    hk.exists_reachedOn (List.ne_nil_of_mem ho)⟩
  rcases List.mem_append.1 hx with hx | hx
  · exact hw x hx
  · exact List.mem_singleton.1 hx ▸ hstart

/-- Working out a state that a word leads to makes states that the word and a point lead to. -/
theorem Found.pieces (ha : InRange a) (h : Found a done p) {w : List ℤ}
    (hw : ∀ x ∈ w, Point.InDomain x) (hk : IsKey a (ReachedOn a w) key) {ws : List (ℤ × ℤ)}
    {found : List (Span × Dfa.Transition)} (hs : scratch.WellFormed)
    (hc : scratch.capacity = a.size)
    (hp : pieces a limit (outgoing a key) ws p scratch = .ok (found, q, scratch')) :
    Found a done q := by
  induction ws generalizing p scratch found with
  | nil =>
    cases hp
    exact h
  | cons window ws ih =>
    obtain ⟨start, stop⟩ := window
    rw [pieces_cons, ← offered] at hp
    split at hp
    case h_1 => exact ih h hs hc hp
    case h_2 o more hsome =>
      obtain ⟨⟨target, p'⟩, hi, hp⟩ := ok_of_bind hp
      obtain ⟨⟨later, q', scratch''⟩, hl, hp⟩ := ok_of_bind hp
      cases hp
      obtain ⟨hr, hrc⟩ := reached_wellFormed (a := a) (o :: more) hs
      exact ih (h.intern (hk.met_next ha hw hs hc hsome) hi) hr (hrc.trans hc) hl

theorem Found.next {keys : Array (List ℕ)} {index : Std.TreeMap (List ℕ) ℕ}
    {maps : Array (PointMap Dfa.Transition)} {waiting : List ℕ} {id : ℕ}
    (h : Found a done ⟨keys, index, maps, id :: waiting⟩) :
    Found a (done ++ [id]) ⟨keys, index, maps, waiting⟩ := by
  refine ⟨⟨h.distinct.keys, h.distinct.nodup, h.distinct.index⟩, h.met, ?_⟩
  rw [List.append_assoc]
  exact h.shared

theorem Found.setMaps (h : Found a done p) (maps : Array (PointMap Dfa.Transition)) :
    Found a done { p with maps := maps } :=
  ⟨⟨h.distinct.keys, h.distinct.nodup, h.distinct.index⟩, h.met, h.shared⟩

theorem Found.lt_of_mem (h : Found a done p) {id : ℕ} (hid : id ∈ done) : id < p.keys.size :=
  List.mem_range.1 (h.shared.mem_iff.1 (List.mem_append_left _ hid))

theorem Found.nodup (h : Found a done p) : done.Nodup :=
  (List.nodup_append.1 (h.shared.nodup_iff.2 List.nodup_range)).1

/-- The log is true of what is found: it has the states that are done, each with the transitions
that it has. -/
structure Logged (a : Nfa) (log : Log) (p : Progress) : Prop where
  found : Found a (log.map (·.1)) p
  maps : ∀ x ∈ log, p.maps[x.1]? = some x.2

/-- Working out a state and noting it keeps the log true, as what is done is left alone. -/
theorem Logged.workOut (ha : InRange a) {keys keys' : Array (List ℕ)}
    {index index' : Std.TreeMap (List ℕ) ℕ} {maps maps' : Array (PointMap Dfa.Transition)}
    {waiting waiting' : List ℕ} {id : ℕ} {log : Log} {found : List (Span × Dfa.Transition)}
    (h : Logged a log ⟨keys, index, maps, id :: waiting⟩)
    (hp : Indexed ⟨keys, index, maps, id :: waiting⟩) (hs : scratch.WellFormed)
    (hc : scratch.capacity = a.size)
    (hpieces : pieces a limit (outgoing a (keys.getD id []))
      (Ascending.windows (cuts (outgoing a (keys.getD id [])))) ⟨keys, index, maps, waiting⟩
        scratch = .ok (found, ⟨keys', index', maps', waiting'⟩, scratch')) :
    Logged a (log ++ [(id, .ofPieces found)])
      ⟨keys', index', maps'.setIfInBounds id (.ofPieces found), waiting'⟩ := by
  have hid : id < keys.size := hp.waiting id List.mem_cons_self
  rw [← Array.getElem_eq_getD (h := hid)] at hpieces
  -- The state was met, so whatever it leads to is met too.
  obtain ⟨w, hw, hk, -⟩ := h.found.met _ (Array.getElem_mem_toList hid)
  obtain ⟨hq, he, -, -⟩ := pieces_spec hpieces hp.next hs hc
  have hfound := h.found.next.pieces ha hw hk hs hc hpieces
  have hmem : id ∈ log.map (·.1) ++ [id] := List.mem_append_right _ (List.mem_singleton_self id)
  have hmaps : id < maps'.size := (hfound.lt_of_mem hmem).trans_eq hq.size.symm
  refine ⟨?_, fun x hx => ?_⟩
  · rw [List.map_append]
    exact hfound.setMaps _
  · rcases List.mem_append.1 hx with hx | hx
    · -- What was done before is another state.
      have hdone := List.mem_map_of_mem (f := (·.1)) hx
      have hne : id ≠ x.1 := fun heq =>
        (List.nodup_append.1 hfound.nodup).2.2 x.1 hdone id (List.mem_singleton_self id) heq.symm
      exact (Array.getElem?_setIfInBounds_ne hne).trans
        ((he.maps x.1 (h.found.lt_of_mem hdone)).trans (h.maps x hx))
    · cases List.mem_singleton.1 hx
      exact Array.getElem?_setIfInBounds_self_of_lt hmaps

/-- Rounds work out each state that waits and each that is found meanwhile. -/
theorem completeLogged_spec (ha : InRange a) {rounds : ℕ} {log log' : Log}
    (h : (completeLogged a limit rounds p scratch).run log = .ok (q, log')) (hp : Indexed p)
    (hl : Logged a log p) (hs : scratch.WellFormed) (hc : scratch.capacity = a.size) :
    Logged a log' q ∧ q.waiting = [] := by
  induction rounds generalizing p scratch log with
  | zero =>
    rw [completeLogged, Steps.complete] at h
    split at h
    case isTrue he =>
      cases h
      exact ⟨hl, List.isEmpty_iff.1 he⟩
    case isFalse => cases h
  | succ rounds ih =>
    obtain ⟨keys, index, maps, waiting⟩ := p
    cases waiting with
    | nil =>
      cases h
      exact ⟨hl, rfl⟩
    | cons id waiting =>
      rw [run_completeLogged_succ] at h
      obtain ⟨⟨found, ⟨keys', index', maps', waiting'⟩, scratch'⟩, hpieces, h⟩ := ok_of_bind h
      obtain ⟨hq, -, ⟨hs', hc'⟩, -⟩ := pieces_spec hpieces hp.next hs hc
      exact ih h (hq.setMap _) (hl.workOut ha hp hs hc hpieces) hs' hc'

end

/-! ### What is found in the end -/

theorem IsKey.eq_iff {a : Nfa} {P P' : ℕ → Prop} {key key' : List ℕ} (h : IsKey a P key)
    (h' : IsKey a P' key') : key = key' ↔ ∀ j, significant a j = true → (P j ↔ P' j) := by
  constructor
  · rintro rfl j hj
    exact and_congr_right_iff.1 ((h.mem j).symm.trans (h'.mem j)) hj
  · intro hsame
    refine Ascending.eq_of_mem_iff h.ascending h'.ascending fun j => ?_
    rw [h.mem, h'.mem]
    exact and_congr_right (hsame j)

section

variable {a : Nfa} {d : Dfa} {keys : Array (List ℕ)} (ha : InRange a) (hd : Represents a d keys)
  {v w : List ℤ} {q r : ℕ} {key : List ℕ}

include ha hd

/-- A state has transitions just if something can be consumed out of the states it stands for. -/
theorem Represents.transitions_eq_empty_iff (hq : d.run? Dfa.start w = some q) {s : Dfa.State}
    (hs : d.states[q]? = some s) :
    s.transitions = .empty ↔
      ∀ i t p, ReachedOn a w i → t ∈ a.transitions i → ¬ t.Consumes p := by
  obtain ⟨key, hkey, hk⟩ := hd.exists_isKey ha hq
  obtain ⟨s', hs', -, hdescribes⟩ := hd.state q key hkey
  cases hs'.symm.trans hs
  constructor
  · rintro hempty i t p hi ht ⟨set, hset, hp⟩
    have ho := List.ne_nil_of_mem (hk.mem_offered.2 ⟨i, hi, t, ht, set, hset, hp, rfl⟩)
    obtain ⟨u, hu, -⟩ := hdescribes.present p (PointSet.inDomain_of_contains hp) ho
    rw [hempty, PointMap.get?_empty] at hu
    cases hu
  · intro hnone
    refine PointMap.ext_get? fun p => ?_
    rw [PointMap.get?_empty]
    by_cases hp : Point.InDomain p
    · refine hdescribes.missing p hp (List.eq_nil_iff_forall_not_mem.2 fun o ho => ?_)
      obtain ⟨i, hi, t, ht, set, hset, hmem, -⟩ := hk.mem_offered.1 ho
      exact hnone i t p hi ht ⟨set, hset, hmem⟩
    · exact PointMap.get?_eq_none _ hp

variable (hn : keys.toList.Nodup)

include hn

theorem Represents.eq_iff (hq : d.run? Dfa.start v = some q) (hr : d.run? Dfa.start w = some r) :
    q = r ↔ ∀ j, significant a j = true → (ReachedOn a v j ↔ ReachedOn a w j) := by
  obtain ⟨key, hkey, hk⟩ := hd.exists_isKey ha hq
  obtain ⟨key', hkey', hk'⟩ := hd.exists_isKey ha hr
  rw [← hk.eq_iff hk']
  constructor
  · rintro rfl
    exact Option.some.inj (hkey.symm.trans hkey')
  · rintro rfl
    rw [← Array.getElem?_toList] at hkey hkey'
    exact (List.getElem?_inj (List.getElem?_eq_some_iff.1 hkey).1 hn).1 (hkey.trans hkey'.symm)

theorem Represents.exists_word (hkey : keys[q]? = some key) (hm : Met a key) :
    ∃ w, (∀ x ∈ w, Point.InDomain x) ∧ d.run? Dfa.start w = some q := by
  obtain ⟨w, hw, hk, j, hj⟩ := hm
  refine ⟨w, hw, ?_⟩
  rcases run_spec ha hd w with ⟨-, hnone⟩ | ⟨r, key', hr, hkey', hk', -⟩
  · exact absurd hj (hnone j)
  · obtain rfl := (hk.eq_iff hk').2 fun _ _ => Iff.rfl
    rw [← Array.getElem?_toList] at hkey hkey'
    obtain rfl := (List.getElem?_inj (List.getElem?_eq_some_iff.1 hkey).1 hn).1
      (hkey.trans hkey'.symm)
    exact hr

end

section

variable {a : Nfa} {limit : Option ℕ} {log : List (ℕ × PointMap Dfa.Transition)} {p : Progress}

theorem determinizeLogged_spec (ha : InRange a) (h : a.determinizeLogged limit = .ok (log, p)) :
    Logged a log p ∧ p.waiting = [] ∧ Represents a (p.toDfa a) p.keys := by
  obtain ⟨⟨id, p₀⟩, hi, h⟩ := ok_of_bind h
  obtain ⟨⟨q, log'⟩, hq, h⟩ := ok_of_bind h
  cases h
  obtain ⟨hs, hc⟩ := closure_start_wellFormed a
  have hstart : Met a (keyOf a (closure a Nfa.start (.ofCapacity a.size))) :=
    ⟨[], fun _ h => (List.not_mem_nil h).elim, isKey_start ha, _, Nfa.reachedOn_start⟩
  have hl : Logged a [] p₀ :=
    ⟨(found_initial a).intern hstart hi, fun _ h => (List.not_mem_nil h).elim⟩
  obtain ⟨hlogged, hnone⟩ :=
    completeLogged_spec ha hq (intern_spec hi indexed_initial).1 hl hs hc
  exact ⟨hlogged, hnone, represents_toDfa hi (complete_of_logged hq)⟩

/-- Each state is worked out once, and has the transitions that it was given then. -/
theorem Logged.mem_iff (h : Logged a log p) (hnone : p.waiting = []) (q : ℕ)
    (m : PointMap Dfa.Transition) :
    (q, m) ∈ log ↔ ∃ s, (p.toDfa a).states[q]? = some s ∧ s.transitions = m := by
  have hmaps : ∀ m, (q, m) ∈ log → p.maps.getD q .empty = m := by
    intro m hm
    rw [Array.getD_eq_getD_getElem?, h.maps (q, m) hm, Option.getD_some]
  constructor
  · intro hm
    have hq := h.found.lt_of_mem (List.mem_map_of_mem hm)
    refine ⟨⟨p.maps.getD q .empty, domainsOf a p.keys[q]⟩, ?_, hmaps m hm⟩
    rw [p.getElem?_toDfa, Array.getElem?_eq_getElem hq, Option.map_some]
  · rintro ⟨s, hs, rfl⟩
    rw [p.getElem?_toDfa] at hs
    obtain ⟨key, hkey, rfl⟩ := Option.map_eq_some_iff.1 hs
    have hrange := List.mem_range.2 (Array.getElem?_eq_some_iff.1 hkey).1
    rw [← h.found.shared.mem_iff, hnone, List.append_nil] at hrange
    obtain ⟨⟨_, m⟩, hm, rfl⟩ := List.mem_map.1 hrange
    rw [← hmaps m hm] at hm
    exact hm

end

/-- Subset construction makes an automaton that is trim and canonical. Every state is led to from
the start; words lead to the same state just if they lead to the same significant states of the
other automaton; every state is worked out once, and left without transitions only if nothing can be
consumed there; and the patterns of a state ascend. -/
theorem determinize_trim {limits : Nfa.Limits} {nodes : List Node} {a : Nfa} {limit : Option ℕ}
    {d : Dfa} (hb : Nfa.build limits nodes = .ok a) (hd : a.determinize limit = .ok d) :
    (∀ q < d.size, ∃ w, (∀ x ∈ w, Point.InDomain x) ∧ d.run? Dfa.start w = some q) ∧
      (∀ v w q r, d.run? Dfa.start v = some q → d.run? Dfa.start w = some r →
        (q = r ↔ ∀ j, significant a j = true → (ReachedOn a v j ↔ ReachedOn a w j))) ∧
      (∃ log p, a.determinizeLogged limit = .ok (log, p) ∧ d = p.toDfa a ∧
        (log.map (·.1)).Perm (List.range d.size) ∧
        ∀ q m, (q, m) ∈ log ↔ ∃ s, d.states[q]? = some s ∧ s.transitions = m) ∧
      (∀ w q s, d.run? Dfa.start w = some q → d.states[q]? = some s →
        (s.transitions = .empty ↔
          ∀ i t p, ReachedOn a w i → t ∈ a.transitions i → ¬ t.Consumes p)) ∧
      ∀ (q : ℕ) (s : Dfa.State), d.states[q]? = some s → s.domains.Pairwise (· < ·) := by
  obtain ⟨rfl, -, -⟩ := Nfa.build_eq_ok hb
  have ha := Nfa.inRange_ofNodes nodes
  have hdomains : ∀ (q : ℕ) (s : Dfa.State), d.states[q]? = some s → s.domains.Pairwise (· < ·) :=
    fun _ _ hs => pairwise_domains hd hs
  rw [← map_determinizeLogged] at hd
  obtain ⟨⟨log, p⟩, hlogged, rfl⟩ := ok_of_map hd
  obtain ⟨hl, hnone, hr⟩ := determinizeLogged_spec ha hlogged
  have hnodup := hl.found.distinct.nodup
  have hshared := hl.found.shared
  rw [hnone, List.append_nil] at hshared
  refine ⟨fun q hq => ?_, fun v w q r => hr.eq_iff ha hnodup,
    ⟨log, p, hlogged, rfl, ?_, hl.mem_iff hnone⟩,
    fun w q s hq hs => hr.transitions_eq_empty_iff ha hq hs, hdomains⟩
  · rw [hr.size] at hq
    have hkey := Array.getElem?_eq_getElem hq
    exact hr.exists_word ha hnodup hkey (hl.found.met _ (Array.getElem_mem_toList hq))
  · rw [hr.size]
    exact hshared

theorem determinize_trim_letters :
    ∃ a d, Nfa.build .unset [.oneOf (.text ['a', 'b']) (.text ['a', 'b'])] = .ok a ∧
      a.determinize (some 9) = .ok d ∧ d.size = 3 ∧
      ∃ w, (∀ x ∈ w, Point.InDomain x) ∧ d.run? Dfa.start w = some 2 := by
  have hb : Nfa.build .unset [.oneOf (.text ['a', 'b']) (.text ['a', 'b'])] =
      .ok (Nfa.ofNodes [.oneOf (.text ['a', 'b']) (.text ['a', 'b'])]) := rfl
  have hrun : ((Nfa.ofNodes [.oneOf (.text ['a', 'b']) (.text ['a', 'b'])]).determinize
      (some 9)).map Dfa.size = .ok 3 := by decide +kernel
  cases hd : (Nfa.ofNodes [.oneOf (.text ['a', 'b']) (.text ['a', 'b'])]).determinize (some 9) with
  | error e =>
    rw [hd] at hrun
    cases hrun
  | ok d =>
    rw [hd] at hrun
    have hsize : d.size = 3 := Except.ok.inj hrun
    exact ⟨_, d, hb, hd, hsize, (determinize_trim hb hd).1 2 (by rw [hsize]; decide)⟩

end Subset

end PatternAutomata
