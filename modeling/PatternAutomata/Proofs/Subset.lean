import PatternAutomata.Dfa.Subset
import PatternAutomata.Proofs.Collections
import PatternAutomata.Proofs.PointMap
import PatternAutomata.Proofs.PointSet
import PatternAutomata.Proofs.SparseSet

/-!
What subset construction leaves behind: each state has a key, a list of states of the other
automaton, and its transitions lead where those out of its key lead. This holds of any automaton;
what the keys have to do with runs is not said here.
-/

set_option autoImplicit false

namespace PatternAutomata.Subset

open Ascending (mem_merge pairwise_merge windows windows_adjacent exists_window)

def offered (os : List Outgoing) (p : ℤ) : List Outgoing := os.filter fun o => o.points.contains p

theorem mem_cuts {os : List Outgoing} {c : ℤ} :
    c ∈ cuts os ↔ ∃ o ∈ os, ∃ r ∈ o.points.spans, c = r.start ∨ c = r.stop := by
  induction os with
  | nil => simp [cuts]
  | cons o os ih =>
    rw [cuts, List.foldr_cons, ← cuts, mem_merge, ih]
    simp

theorem pairwise_cuts (os : List Outgoing) : (cuts os).Pairwise (· < ·) := by
  induction os with
  | nil => exact .nil
  | cons o os ih => exact pairwise_merge (PointSet.pairwise_ends o.points.separated) ih

theorem offered_of_window {os : List Outgoing} {start stop p : ℤ}
    (hw : (start, stop) ∈ windows (cuts os)) (h1 : start ≤ p) (h2 : p < stop) :
    offered os start = offered os p := by
  have hcut := (windows_adjacent (pairwise_cuts os) hw).2
  refine List.filter_congr fun o ho => ?_
  rw [Bool.eq_iff_iff, PointSet.contains, PointSet.contains, List.any_eq_true, List.any_eq_true]
  have hspan : ∀ r ∈ o.points.spans, r.contains start = true ↔ r.contains p = true := by
    intro r hr
    have hs := hcut r.start (mem_cuts.2 ⟨o, ho, r, hr, .inl rfl⟩)
    have he := hcut r.stop (mem_cuts.2 ⟨o, ho, r, hr, .inr rfl⟩)
    rw [Span.contains_iff, Span.contains_iff]
    omega
  constructor
  · rintro ⟨r, hr, hc⟩
    exact ⟨r, hr, (hspan r hr).1 hc⟩
  · rintro ⟨r, hr, hc⟩
    exact ⟨r, hr, (hspan r hr).2 hc⟩

theorem exists_window_of_contains {os : List Outgoing} {o : Outgoing} {p : ℤ} (ho : o ∈ os)
    (hp : o.points.contains p = true) :
    ∃ start stop, (start, stop) ∈ windows (cuts os) ∧ start ≤ p ∧ p < stop := by
  obtain ⟨r, hr, hc⟩ := List.any_eq_true.1 hp
  obtain ⟨h1, h2⟩ := Span.contains_iff.1 hc
  exact exists_window (mem_cuts.2 ⟨o, ho, r, hr, .inl rfl⟩) (mem_cuts.2 ⟨o, ho, r, hr, .inr rfl⟩)
    (pairwise_cuts os) h1 h2

/-- `key` is what the states reached over `os` amount to, whatever set is used to collect them. -/
def Leads (a : Nfa) (os : List Outgoing) (key : List ℕ) : Prop :=
  ∃ scratch : SparseSet, scratch.WellFormed ∧ scratch.capacity = a.size ∧
    key = keyOf a (reached a os scratch)

structure Combines (a : Nfa) (keys : Array (List ℕ)) (os : List Outgoing) (t : Dfa.Transition) :
    Prop where
  reluctant : t.reluctant = os.all (·.reluctant)
  target : ∃ key, keys[t.target]? = some key ∧ Leads a os key

structure Describes (a : Nfa) (keys : Array (List ℕ)) (os : List Outgoing)
    (m : PointMap Dfa.Transition) : Prop where
  missing : ∀ p, Point.InDomain p → offered os p = [] → m.get? p = none
  present : ∀ p, Point.InDomain p → offered os p ≠ [] →
    ∃ t, m.get? p = some t ∧ Combines a keys (offered os p) t

/-- States keep their keys, and those that do not wait their transitions; new ones wait. -/
structure Extends (p q : Progress) : Prop where
  keys : ∀ (id : ℕ) (key : List ℕ), p.keys[id]? = some key → q.keys[id]? = some key
  maps : ∀ id : ℕ, id < p.keys.size → q.maps[id]? = p.maps[id]?
  waiting : ∀ id : ℕ, id ∈ p.waiting → id ∈ q.waiting
  fresh : ∀ id : ℕ, p.keys.size ≤ id → id < q.keys.size → id ∈ q.waiting

structure Indexed (p : Progress) : Prop where
  index : ∀ (key : List ℕ) (id : ℕ), p.index[key]? = some id → p.keys[id]? = some key
  size : p.maps.size = p.keys.size
  waiting : ∀ id ∈ p.waiting, id < p.keys.size

section

variable {keys : Array (List ℕ)} {index : Std.TreeMap (List ℕ) ℕ}
  {maps : Array (PointMap Dfa.Transition)} {waiting : List ℕ} {id : ℕ}

theorem Indexed.next (h : Indexed ⟨keys, index, maps, id :: waiting⟩) :
    Indexed ⟨keys, index, maps, waiting⟩ :=
  ⟨h.index, h.size, fun id hid => h.waiting id (List.mem_cons_of_mem _ hid)⟩

theorem Indexed.setMap (h : Indexed ⟨keys, index, maps, waiting⟩) (m : PointMap Dfa.Transition) :
    Indexed ⟨keys, index, maps.setIfInBounds id m, waiting⟩ :=
  ⟨h.index, (Array.size_setIfInBounds ..).trans h.size, h.waiting⟩

end

theorem Extends.refl (p : Progress) : Extends p p where
  keys _ _ h := h
  maps _ _ := rfl
  waiting _ h := h
  fresh _ h1 h2 := absurd h2 (Nat.not_lt.2 h1)

theorem Extends.size_le {p q : Progress} (h : Extends p q) : p.keys.size ≤ q.keys.size := by
  by_contra hlt
  have hkey := h.keys q.keys.size _ (Array.getElem?_eq_getElem (Nat.lt_of_not_le hlt))
  exact Nat.lt_irrefl _ (Array.getElem?_eq_some_iff.1 hkey).1

theorem Extends.trans {p q r : Progress} (h : Extends p q) (g : Extends q r) : Extends p r where
  keys id key hk := g.keys id key (h.keys id key hk)
  maps id hid := (g.maps id (hid.trans_le h.size_le)).trans (h.maps id hid)
  waiting id hid := g.waiting id (h.waiting id hid)
  fresh id h1 h2 := by
    by_cases hq : id < q.keys.size
    · exact g.waiting id (h.fresh id h1 hq)
    · exact g.fresh id (Nat.le_of_not_lt hq) h2

theorem Combines.extend {a : Nfa} {keys keys' : Array (List ℕ)} {os : List Outgoing}
    {t : Dfa.Transition} (h : Combines a keys os t)
    (hk : ∀ (id : ℕ) (key : List ℕ), keys[id]? = some key → keys'[id]? = some key) :
    Combines a keys' os t := by
  obtain ⟨hr, key, ht, hl⟩ := h
  exact ⟨hr, key, hk _ _ ht, hl⟩

theorem Describes.extend {a : Nfa} {keys keys' : Array (List ℕ)} {os : List Outgoing}
    {m : PointMap Dfa.Transition} (h : Describes a keys os m)
    (hk : ∀ (id : ℕ) (key : List ℕ), keys[id]? = some key → keys'[id]? = some key) :
    Describes a keys' os m where
  missing := h.missing
  present p hp hne := by
    obtain ⟨t, ht, hc⟩ := h.present p hp hne
    exact ⟨t, ht, hc.extend hk⟩

theorem getElem?_push_of_some {α : Type} {xs : Array α} {i : ℕ} {x y : α} (h : xs[i]? = some x) :
    (xs.push y)[i]? = some x := by
  have hlt := (Array.getElem?_eq_some_iff.1 h).1
  rw [Array.getElem?_push, if_neg hlt.ne, h]

theorem intern_cases {a : Nfa} {limit : ℕ} {key : List ℕ} {p : Progress} {x : ℕ × Progress}
    (h : intern a limit key p = .ok x) :
    (∃ id, p.index[key]? = some id ∧ x = (id, p)) ∨
      (p.index[key]? = none ∧ p.keys.size < limit ∧ x = (p.keys.size, p.add key)) := by
  rw [intern, Steps.intern] at h
  split at h
  case h_1 id hid =>
    cases h
    exact .inl ⟨id, hid, rfl⟩
  case h_2 hnone =>
    obtain ⟨⟨⟩, hpermit, h⟩ := ok_of_bind h
    cases h
    dsimp only [steps] at hpermit
    split at hpermit
    · cases hpermit
    · exact .inr ⟨hnone, by omega, rfl⟩

theorem Indexed.add {key : List ℕ} {p : Progress} (hp : Indexed p) : Indexed (p.add key) := by
  obtain ⟨keys, index, maps, waiting⟩ := p
  refine ⟨fun key' id' hid => ?_, ?_, fun id hid => ?_⟩
  · simp only [Progress.add, Std.TreeMap.getElem?_insert, Std.compare_eq_iff_eq] at hid
    split at hid
    case isTrue he =>
      cases he
      cases hid
      exact Array.getElem?_push_size
    case isFalse => exact getElem?_push_of_some (hp.index key' id' hid)
  · have hsize : maps.size = keys.size := hp.size
    simp only [Progress.add, Array.size_push, hsize]
  · simp only [Progress.add, Array.size_push]
    rcases List.mem_cons.1 hid with rfl | hid
    · exact Nat.lt_succ_self _
    · exact (hp.waiting id hid).trans (Nat.lt_succ_self _)

theorem Indexed.extends_add {key : List ℕ} {p : Progress} (hp : Indexed p) :
    Extends p (p.add key) := by
  obtain ⟨keys, index, maps, waiting⟩ := p
  have hsize : maps.size = keys.size := hp.size
  refine ⟨fun id key' hk => getElem?_push_of_some hk, fun id hid => ?_,
    fun id hid => List.mem_cons_of_mem _ hid, fun id h1 h2 => ?_⟩
  · simp only at hid
    simp only [Progress.add]
    rw [Array.getElem?_push, if_neg (by omega)]
  · simp only [Progress.add, Array.size_push] at h1 h2 ⊢
    rw [show id = keys.size by omega]
    exact List.mem_cons_self

theorem intern_spec {a : Nfa} {limit id : ℕ} {key : List ℕ} {p q : Progress}
    (h : intern a limit key p = .ok (id, q)) (hp : Indexed p) :
    Indexed q ∧ Extends p q ∧ q.keys[id]? = some key := by
  rcases intern_cases h with ⟨id, hid, h⟩ | ⟨-, -, h⟩
  · cases h
    exact ⟨hp, .refl p, hp.index key _ hid⟩
  · cases h
    exact ⟨hp.add, hp.extends_add, Array.getElem?_push_size⟩

theorem closure_wellFormed {a : Nfa} (id : ℕ) {s : SparseSet} (hs : s.WellFormed) :
    (closure a id s).WellFormed ∧ (closure a id s).capacity = s.capacity :=
  SparseSet.explore_wellFormed id hs

theorem closure_start_wellFormed (a : Nfa) :
    (closure a Nfa.start (.ofCapacity a.size)).WellFormed ∧
      (closure a Nfa.start (.ofCapacity a.size)).capacity = a.size := by
  obtain ⟨h, hc⟩ := closure_wellFormed (a := a) Nfa.start (SparseSet.wellFormed_ofCapacity a.size)
  exact ⟨h, hc.trans (SparseSet.capacity_ofCapacity a.size)⟩

theorem foldl_closure_wellFormed {a : Nfa} (os : List Outgoing) {s : SparseSet}
    (hs : s.WellFormed) : (os.foldl (fun s o => closure a o.target s) s).WellFormed ∧
      (os.foldl (fun s o => closure a o.target s) s).capacity = s.capacity := by
  induction os generalizing s with
  | nil => exact ⟨hs, rfl⟩
  | cons o os ih =>
    obtain ⟨h1, h2⟩ := closure_wellFormed (a := a) o.target hs
    obtain ⟨h3, h4⟩ := ih h1
    exact ⟨h3, h4.trans h2⟩

theorem reached_wellFormed {a : Nfa} (os : List Outgoing) {s : SparseSet} (hs : s.WellFormed) :
    (reached a os s).WellFormed ∧ (reached a os s).capacity = s.capacity :=
  foldl_closure_wellFormed os hs.clear

/-- What working out a state leaves behind: a piece for each window that has something to offer. -/
theorem pieces_spec {a : Nfa} {limit : ℕ} {os : List Outgoing} {ws : List (ℤ × ℤ)}
    {p q : Progress} {scratch scratch' : SparseSet} {found : List (Span × Dfa.Transition)}
    (h : pieces a limit os ws p scratch = .ok (found, q, scratch')) (hp : Indexed p)
    (hs : scratch.WellFormed) (hc : scratch.capacity = a.size) :
    Indexed q ∧ Extends p q ∧ (scratch'.WellFormed ∧ scratch'.capacity = a.size) ∧
      (∀ piece ∈ found, ∃ start stop, (start, stop) ∈ ws ∧ piece.1 = ⟨start, stop⟩ ∧
        offered os start ≠ [] ∧ Combines a q.keys (offered os start) piece.2) ∧
      ∀ start stop, (start, stop) ∈ ws → offered os start ≠ [] →
        ∃ t, (⟨start, stop⟩, t) ∈ found := by
  induction ws generalizing p scratch found with
  | nil =>
    cases h
    exact ⟨hp, .refl _, ⟨hs, hc⟩, fun _ h => (List.not_mem_nil h).elim,
      fun _ _ h => (List.not_mem_nil h).elim⟩
  | cons w ws ih =>
    obtain ⟨start, stop⟩ := w
    rw [pieces_cons, ← offered] at h
    split at h
    case h_1 hnone =>
      obtain ⟨hq, he, hscratch, hfound, hall⟩ := ih h hp hs hc
      refine ⟨hq, he, hscratch, fun piece hm => ?_, fun start' stop' hw hne => ?_⟩
      · obtain ⟨start', stop', hw, rest⟩ := hfound piece hm
        exact ⟨start', stop', List.mem_cons_of_mem _ hw, rest⟩
      · rcases List.mem_cons.1 hw with heq | hw
        · cases heq
          exact absurd hnone hne
        · exact hall start' stop' hw hne
    case h_2 o more hsome =>
      obtain ⟨⟨target, p'⟩, hi, h⟩ := ok_of_bind h
      obtain ⟨⟨later, q', scratch''⟩, hl, h⟩ := ok_of_bind h
      cases h
      obtain ⟨hr, hrc⟩ := reached_wellFormed (a := a) (o :: more) hs
      obtain ⟨hp', he', hkey⟩ := intern_spec hi hp
      obtain ⟨hq, he, hscratch, hfound, hall⟩ := ih hl hp' hr (hrc.trans hc)
      refine ⟨hq, he'.trans he, hscratch, fun piece hm => ?_, fun start' stop' hw hne => ?_⟩
      · rcases List.mem_cons.1 hm with rfl | hm
        · refine ⟨start, stop, List.mem_cons_self, rfl, ?_⟩
          rw [hsome]
          exact ⟨List.cons_ne_nil o more, rfl, _, he.keys _ _ hkey, scratch, hs, hc, rfl⟩
        · obtain ⟨start', stop', hw, rest⟩ := hfound piece hm
          exact ⟨start', stop', List.mem_cons_of_mem _ hw, rest⟩
      · rcases List.mem_cons.1 hw with heq | hw
        · cases heq
          exact ⟨_, List.mem_cons_self⟩
        · obtain ⟨t, ht⟩ := hall start' stop' hw hne
          exact ⟨t, List.mem_cons_of_mem _ ht⟩

theorem describes_ofPieces {a : Nfa} {limit : ℕ} {os : List Outgoing} {p q : Progress}
    {scratch scratch' : SparseSet} {found : List (Span × Dfa.Transition)}
    (h : pieces a limit os (windows (cuts os)) p scratch = .ok (found, q, scratch'))
    (hp : Indexed p) (hs : scratch.WellFormed) (hc : scratch.capacity = a.size) :
    Describes a q.keys os (.ofPieces found) := by
  obtain ⟨-, -, -, hfound, hall⟩ := pieces_spec h hp hs hc
  have hpiece : ∀ x t, (PointMap.ofPieces found).get? x = some t → Point.InDomain x →
      offered os x ≠ [] ∧ Combines a q.keys (offered os x) t := by
    intro x t ht hx
    rw [PointMap.get?_ofPieces _ hx] at ht
    obtain ⟨piece, hm, rfl⟩ := Option.map_eq_some_iff.1 ht
    obtain ⟨start, stop, hw, hspan, hcomb⟩ := hfound piece (List.mem_of_find?_eq_some hm)
    have hin := List.find?_some hm
    rw [hspan, Span.contains_iff] at hin
    rw [← offered_of_window hw hin.1 hin.2]
    exact hcomb
  constructor
  · intro x hx hnone
    by_contra hsome
    obtain ⟨t, ht⟩ := Option.ne_none_iff_exists'.1 hsome
    exact (hpiece x t ht hx).1 hnone
  · intro x hx hsome
    obtain ⟨o, ho⟩ := List.exists_mem_of_ne_nil _ hsome
    obtain ⟨ho, hc⟩ := List.mem_filter.1 ho
    obtain ⟨start, stop, hw, h1, h2⟩ := exists_window_of_contains ho hc
    rw [← offered_of_window hw h1 h2] at hsome
    obtain ⟨t, ht⟩ := hall start stop hw hsome
    have hfind : ((found.find? fun piece => piece.1.contains x).map (·.2)).isSome := by
      rw [Option.isSome_map, List.find?_isSome]
      exact ⟨_, ht, Span.contains_iff.2 ⟨h1, h2⟩⟩
    rw [← PointMap.get?_ofPieces _ hx] at hfind
    obtain ⟨t, ht⟩ := Option.isSome_iff_exists.1 hfind
    exact ⟨t, ht, (hpiece x t ht hx).2⟩

def Worked (a : Nfa) (p : Progress) : Prop :=
  ∀ (id : ℕ) (key : List ℕ), p.keys[id]? = some key → id ∈ p.waiting ∨
    Describes a p.keys (outgoing a key) (p.maps.getD id .empty)

theorem Extends.settled {p q : Progress} (h : Extends p q) {id : ℕ} {key : List ℕ}
    (hk : q.keys[id]? = some key) : id ∈ q.waiting ∨
      p.keys[id]? = some key ∧ q.maps.getD id .empty = p.maps.getD id .empty := by
  by_cases hid : id < p.keys.size
  · have hold := Array.getElem?_eq_getElem hid
    have hkey := h.keys id _ hold
    rw [hk] at hkey
    rw [← Option.some.inj hkey] at hold
    refine .inr ⟨hold, ?_⟩
    rw [Array.getD_eq_getD_getElem?, h.maps id hid, ← Array.getD_eq_getD_getElem?]
  · exact .inl (h.fresh id (Nat.le_of_not_lt hid) (Array.getElem?_eq_some_iff.1 hk).1)

/-- Once the state that waits first has its transitions, it need not wait any longer. -/
theorem Worked.settle {a : Nfa} {p q : Progress} {id : ℕ} {rest : List ℕ}
    {m : PointMap Dfa.Transition} (hw : Worked a p) (hp : p.waiting = id :: rest)
    (he : Extends { p with waiting := rest } q) (hid : id < q.maps.size)
    (hm : ∀ key, q.keys[id]? = some key → Describes a q.keys (outgoing a key) m) :
    Worked a { q with maps := q.maps.setIfInBounds id m } := by
  intro id' key hk
  simp only at hk ⊢
  by_cases heq : id' = id
  · subst heq
    rw [Array.getD_eq_getD_getElem?, Array.getElem?_setIfInBounds_self_of_lt hid, Option.getD_some]
    exact .inr (hm key hk)
  · rw [Array.getD_eq_getD_getElem?, Array.getElem?_setIfInBounds_ne (Ne.symm heq),
      ← Array.getD_eq_getD_getElem?]
    rcases he.settled hk with h | ⟨hold, hmap⟩
    · exact .inl h
    · rw [hmap]
      rcases hw id' key hold with h | h
      · rw [hp] at h
        exact .inl (he.waiting id' ((List.mem_cons.1 h).resolve_left heq))
      · exact .inr (h.extend he.keys)

theorem complete_spec {a : Nfa} {limit rounds : ℕ} {p q : Progress} {scratch : SparseSet}
    (h : complete a limit rounds p scratch = .ok q) (hp : Indexed p) (hw : Worked a p)
    (hs : scratch.WellFormed) (hc : scratch.capacity = a.size) :
    Worked a q ∧ q.waiting = [] ∧ q.maps.size = q.keys.size ∧
      ∀ (id : ℕ) (key : List ℕ), p.keys[id]? = some key → q.keys[id]? = some key := by
  induction rounds generalizing p scratch with
  | zero =>
    rw [complete_zero] at h
    split at h
    case isTrue he =>
      cases h
      exact ⟨hw, List.isEmpty_iff.1 he, hp.size, fun _ _ h => h⟩
    case isFalse => cases h
  | succ rounds ih =>
    obtain ⟨keys, index, maps, waiting⟩ := p
    cases waiting with
    | nil =>
      cases h
      exact ⟨hw, rfl, hp.size, fun _ _ h => h⟩
    | cons id waiting =>
      rw [complete_succ] at h
      obtain ⟨⟨found, ⟨keys', index', maps', waiting'⟩, scratch'⟩, hf, h⟩ := ok_of_bind h
      have hid : id < keys.size := hp.waiting id List.mem_cons_self
      obtain ⟨hq, he, ⟨hs', hc'⟩, -⟩ := pieces_spec hf hp.next hs hc
      have hd := describes_ofPieces hf hp.next hs hc
      have hkey := he.keys id _ (Array.getElem?_eq_getElem hid)
      have hmaps : id < maps'.size := by
        rw [show maps'.size = keys'.size from hq.size]
        exact hid.trans_le he.size_le
      have hworked := hw.settle rfl he hmaps fun key hk => by
        rw [Array.getD_eq_getD_getElem?, Array.getElem?_eq_getElem hid, Option.getD_some] at hd
        cases hkey.symm.trans hk
        exact hd
      obtain ⟨h1, h2, h3, h4⟩ := ih h (hq.setMap _) hworked hs' hc'
      exact ⟨h1, h2, h3, fun id key hk => h4 id key (he.keys id key hk)⟩

theorem indexed_initial : Indexed .initial where
  index key id h := by
    rw [Progress.initial, Std.TreeMap.getElem?_emptyc] at h
    cases h
  size := rfl
  waiting id h := (List.not_mem_nil h).elim

theorem intern_initial {a : Nfa} {limit id : ℕ} {key : List ℕ} {p : Progress}
    (h : intern a limit key .initial = .ok (id, p)) : id = 0 := by
  rcases intern_cases h with ⟨id', hid, -⟩ | ⟨-, -, h⟩
  · cases indexed_initial.index key id' hid
  · cases h
    rfl

theorem transition?_eq_none (d : Dfa) (q : ℕ) {p : ℤ} (hp : ¬ Point.InDomain p) :
    d.transition? q p = none := by
  rw [Dfa.transition?, Option.bind_eq_none_iff]
  intro s _
  exact PointMap.get?_eq_none _ hp

/-- The deterministic automaton `d` has a state for each of the keys. -/
structure Represents (a : Nfa) (d : Dfa) (keys : Array (List ℕ)) : Prop where
  size : d.size = keys.size
  start : keys[Dfa.start]? = some (keyOf a (closure a Nfa.start (.ofCapacity a.size)))
  state : ∀ (id : ℕ) (key : List ℕ), keys[id]? = some key → ∃ s, d.states[id]? = some s ∧
    s.domains = domainsOf a key ∧ Describes a keys (outgoing a key) s.transitions

theorem Represents.transition? {a : Nfa} {d : Dfa} {keys : Array (List ℕ)}
    (h : Represents a d keys) {q : ℕ} {key : List ℕ} (hk : keys[q]? = some key) {p : ℤ}
    (hp : Point.InDomain p) :
    (offered (outgoing a key) p = [] ∧ d.transition? q p = none) ∨
      offered (outgoing a key) p ≠ [] ∧ ∃ t, d.transition? q p = some t ∧
        Combines a keys (offered (outgoing a key) p) t := by
  obtain ⟨s, hs, -, hd⟩ := h.state q key hk
  rw [Dfa.transition?, hs, Option.bind_some]
  by_cases ho : offered (outgoing a key) p = []
  · exact .inl ⟨ho, hd.missing p hp ho⟩
  · exact .inr ⟨ho, hd.present p hp ho⟩

theorem Progress.size_toDfa (a : Nfa) (p : Progress) : (p.toDfa a).size = p.keys.size := by
  simp only [toDfa, Dfa.size, Array.size_mapIdx]

theorem Progress.getElem?_toDfa (a : Nfa) (p : Progress) (id : ℕ) :
    (p.toDfa a).states[id]? =
      p.keys[id]?.map fun key => ⟨p.maps.getD id .empty, domainsOf a key⟩ := by
  rw [toDfa, Array.getElem?_mapIdx]

/-- Worked out from the start on until no state waits, what was found makes an automaton. -/
theorem represents_toDfa {a : Nfa} {limit rounds id : ℕ} {p q : Progress}
    (hi : intern a limit (keyOf a (closure a Nfa.start (.ofCapacity a.size))) .initial =
      .ok (id, p))
    (hq : complete a limit rounds p (closure a Nfa.start (.ofCapacity a.size)) = .ok q) :
    Represents a (q.toDfa a) q.keys := by
  obtain ⟨hp, he, hkey⟩ := intern_spec hi indexed_initial
  cases intern_initial hi
  have hw : Worked a p := by
    intro id key hk
    rcases he.settled hk with h | ⟨h, -⟩
    · exact .inl h
    · cases h
  obtain ⟨hscratch, hcap⟩ := closure_start_wellFormed a
  obtain ⟨hw, hnone, -, hkeys⟩ := complete_spec hq hp hw hscratch hcap
  refine ⟨q.size_toDfa a, hkeys _ _ hkey, fun id key hk => ?_⟩
  refine ⟨⟨q.maps.getD id .empty, domainsOf a key⟩, ?_, rfl, ?_⟩
  · rw [q.getElem?_toDfa, hk, Option.map_some]
  · rcases hw id key hk with h | h
    · rw [hnone] at h
      cases h
    · exact h

theorem exists_keys {a : Nfa} {limit : Option ℕ} {d : Dfa} (h : a.determinize limit = .ok d) :
    ∃ keys, Represents a d keys := by
  obtain ⟨⟨id, p⟩, hi, h⟩ := ok_of_bind h
  obtain ⟨q, hq, h⟩ := ok_of_bind h
  cases h
  exact ⟨q.keys, represents_toDfa hi hq⟩

theorem pairwise_domains {a : Nfa} {limit : Option ℕ} {d : Dfa} (h : a.determinize limit = .ok d)
    {q : ℕ} {s : Dfa.State} (hs : d.states[q]? = some s) : s.domains.Pairwise (· < ·) := by
  obtain ⟨keys, hr⟩ := exists_keys h
  have hq : q < keys.size := hr.size ▸ (Array.getElem?_eq_some_iff.1 hs).1
  obtain ⟨s', hs', hdomains, -⟩ := hr.state q _ (Array.getElem?_eq_getElem hq)
  cases hs.symm.trans hs'
  rw [hdomains]
  exact Ascending.pairwise_ofList _

theorem inRange_of_determinize {a : Nfa} {limit : Option ℕ} {d : Dfa}
    (h : a.determinize limit = .ok d) : d.InRange := by
  obtain ⟨keys, hr⟩ := exists_keys h
  constructor
  · rw [hr.size]
    exact (Array.getElem?_eq_some_iff.1 hr.start).1
  · intro q p t ht
    obtain ⟨s, hs, hget⟩ := Option.bind_eq_some_iff.1 ht
    have hq : q < keys.size := hr.size ▸ (Array.getElem?_eq_some_iff.1 hs).1
    have hkey := Array.getElem?_eq_getElem hq
    rcases hr.transition? hkey (PointMap.inDomain_of_get? hget) with ⟨-, hnone⟩ | ⟨-, u, hu, hcomb⟩
    · rw [hnone] at ht
      cases ht
    · cases hu.symm.trans ht
      obtain ⟨-, key, hkey, -⟩ := hcomb
      rw [hr.size]
      exact (Array.getElem?_eq_some_iff.1 hkey).1

end PatternAutomata.Subset
