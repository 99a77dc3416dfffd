import PatternAutomata.Proofs.Bounds.Explore
import PatternAutomata.Proofs.Patterns
import PatternAutomata.Proofs.Simulation

/-!
Subset construction by checked access. What a state stands for are states of the other automaton,
and what waits are states that were made, so neither array is left; and the limit on states bounds
the rounds that are needed.
-/

set_option autoImplicit false

namespace PatternAutomata.Subset

open Fault (read view write)
open Nfa (InRange)

def checkedClosure (a : Nfa) (id : ℕ) (s : SparseSet) : Except Fault SparseSet :=
  s.checkedExplore (view (·.silentTargets) a.states) id

def checkedKeyOf (a : Nfa) (s : SparseSet) : Except Fault (List ℕ) := do
  let ids ← s.checkedToList
  let key ← Fault.select (view isSignificant a.states) ids
  return Ascending.ofList key

def outgoingOf (s : Nfa.State) : List Outgoing :=
  s.transitions.filterMap fun t => t.points.map fun points => ⟨points, t.target, t.reluctant⟩

def checkedOutgoing (a : Nfa) (key : List ℕ) : Except Fault (List Outgoing) := do
  let os ← key.mapM (view outgoingOf a.states)
  return os.flatten

def checkedReached (a : Nfa) (os : List Outgoing) (scratch : SparseSet) : Except Fault SparseSet :=
  os.foldlM (fun s o => checkedClosure a o.target s) scratch.clear

def checkedSteps (a : Nfa) (limit : ℕ) : Steps (Except (Failure Dfa.BuildError)) where
  outgoing keys id := (read keys id >>= checkedOutgoing a).mapError .fault
  reached os scratch := (checkedReached a os scratch).mapError .fault
  keyOf scratch := (checkedKeyOf a scratch).mapError .fault
  permit states := ((steps a limit).permit states).mapError .refused
  span start stop := (Span.make start stop).mapError .fault
  settle maps id m := (write maps id m).mapError .fault

def checkedDomainsOf (a : Nfa) (key : List ℕ) : Except Fault (List ℕ) := do
  let domains ← key.mapM (view (·.domain) a.states)
  return Ascending.ofList (domains.filterMap id)

def Progress.checkedToDfa (a : Nfa) (p : Progress) : Except Fault Dfa := do
  let domains ← p.keys.toList.mapM (checkedDomainsOf a)
  return ⟨(List.zipWith Dfa.State.mk p.maps.toList domains).toArray, a.patterns⟩

end Subset

def Nfa.checkedDeterminize (a : Nfa) (limit : Option ℕ) :
    Except (Failure Dfa.BuildError) Dfa := do
  let limit := min (limit.getD Ident.capacity) Ident.capacity
  let empty ← (SparseSet.checkedOfCapacity a.size).mapError .fault
  let scratch ← (Subset.checkedClosure a Nfa.start empty).mapError .fault
  let key ← (Subset.checkedKeyOf a scratch).mapError .fault
  let steps := Subset.checkedSteps a limit
  let (_, p) ← steps.intern key .initial
  let p ← steps.complete (.error (.fault .outOfRange)) limit p scratch
  (p.checkedToDfa a).mapError .fault

namespace Subset

open Fault (view)
open Nfa (InRange)

section

variable {a : Nfa} (ha : InRange a)

include ha

theorem checkedClosure_eq {s : SparseSet} (hs : s.WellFormed) (hc : s.capacity = a.size) {id : ℕ}
    (hid : id < a.size) : checkedClosure a id s = .ok (closure a id s) := by
  refine hs.checkedExplore_eq (fun i hi => ?_) (hc ▸ silentTargets_lt ha) (hc ▸ hid)
  have hlt : i < a.states.size := hi.trans_eq hc
  rw [Fault.view_of_lt _ hlt, Nfa.silentTargets, Array.getElem?_eq_getElem hlt]

theorem checkedReached_eq {os : List Outgoing} (ho : ∀ o ∈ os, o.target < a.size)
    {scratch : SparseSet} (hs : scratch.WellFormed) (hc : scratch.capacity = a.size) :
    checkedReached a os scratch = .ok (reached a os scratch) := by
  refine (Fault.foldlM_eq_ok (P := fun s => s.WellFormed ∧ s.capacity = a.size) ?_
    ⟨hs.clear, hc⟩).1
  rintro s ⟨hs, hc⟩ o hm
  obtain ⟨h1, h2⟩ := closure_wellFormed (a := a) o.target hs
  exact ⟨checkedClosure_eq ha hs hc (ho o hm), h1, h2.trans hc⟩

end

section

variable {a : Nfa}

theorem lt_of_mem_keyOf {s : SparseSet} (hs : s.WellFormed) (hc : s.capacity = a.size) {j : ℕ}
    (hj : j ∈ keyOf a s) : j < a.size := by
  rw [keyOf, Ascending.mem_ofList, List.mem_filter, hs.mem_toList] at hj
  exact hc ▸ hs.lt_capacity hj.1

theorem checkedKeyOf_eq {s : SparseSet} (hs : s.WellFormed) (hc : s.capacity = a.size) :
    checkedKeyOf a s = .ok (keyOf a s) := by
  have hview : ∀ id ∈ s.toList, view isSignificant a.states id = .ok (significant a id) := by
    intro id hid
    have hlt : id < a.states.size := (hs.lt_capacity (hs.mem_toList.1 hid)).trans_eq hc
    rw [Fault.view_of_lt _ hlt, significant, Array.getElem?_eq_getElem hlt]
  rw [checkedKeyOf, bind_of_ok hs.checkedToList_eq, bind_of_ok (Fault.select_eq_ok hview)]
  rfl

variable {key : List ℕ} (hkey : ∀ j ∈ key, j < a.size)

include hkey

theorem checkedOutgoing_eq : checkedOutgoing a key = .ok (outgoing a key) := by
  have hview : ∀ id ∈ key, view outgoingOf a.states id =
      .ok ((a.transitions id).filterMap fun t =>
        t.points.map fun points => ⟨points, t.target, t.reluctant⟩) := by
    intro id hid
    have hlt : id < a.states.size := hkey id hid
    rw [Fault.view_of_lt _ hlt, outgoingOf, Nfa.transitions, Array.getElem?_eq_getElem hlt]
  rw [checkedOutgoing, bind_of_ok (Fault.mapM_eq_ok hview), outgoing, List.flatMap_def]
  rfl

theorem checkedDomainsOf_eq : checkedDomainsOf a key = .ok (domainsOf a key) := by
  have hview : ∀ id ∈ key, view (·.domain) a.states id = .ok (a.domain? id) := by
    intro id hid
    have hlt : id < a.states.size := hkey id hid
    rw [Fault.view_of_lt _ hlt, Nfa.domain?, Array.getElem?_eq_getElem hlt]
    rfl
  rw [checkedDomainsOf, bind_of_ok (Fault.mapM_eq_ok hview), domainsOf, List.filterMap_map]
  rfl

omit hkey in
theorem target_lt_of_mem_outgoing (ha : InRange a) {o : Outgoing} (ho : o ∈ outgoing a key) :
    o.target < a.size := by
  obtain ⟨i, -, t, ht, s, -, rfl⟩ := mem_outgoing.1 ho
  exact ha.target i t ht

end

/-- No more states are found than there may be, and each stands for states of the automaton that is
searched. -/
structure Bounded (a : Nfa) (limit : ℕ) (p : Progress) : Prop where
  size : p.keys.size ≤ limit
  keys : ∀ (id : ℕ) (key : List ℕ), p.keys[id]? = some key → ∀ j ∈ key, j < a.size

def Enlists (p q : Progress) : Prop :=
  q.keys.size + p.waiting.length = p.keys.size + q.waiting.length

section

variable {a : Nfa} {limit : ℕ} {p q : Progress}

theorem bounded_initial : Bounded a limit .initial where
  size := Nat.zero_le _
  keys _ _ h := by cases h

theorem enlists_add (key : List ℕ) (p : Progress) : Enlists p (p.add key) := by
  obtain ⟨keys, index, maps, waiting⟩ := p
  simp only [Progress.add, Enlists, Array.size_push, List.length_cons]
  omega

theorem Bounded.add {key : List ℕ} (hp : Bounded a limit p) (hlimit : p.keys.size < limit)
    (hkey : ∀ j ∈ key, j < a.size) : Bounded a limit (p.add key) := by
  obtain ⟨keys, index, maps, waiting⟩ := p
  refine ⟨?_, fun id' key' hk => ?_⟩
  · simp only [Progress.add, Array.size_push]
    exact hlimit
  · simp only [Progress.add] at hk
    rw [Array.getElem?_push] at hk
    split at hk
    · cases hk
      exact hkey
    · exact hp.keys id' key' hk

theorem intern_bounded {key : List ℕ} {id : ℕ} (h : intern a limit key p = .ok (id, q))
    (hp : Bounded a limit p) (hkey : ∀ j ∈ key, j < a.size) : Bounded a limit q ∧ Enlists p q := by
  rcases intern_cases h with ⟨id, -, h⟩ | ⟨-, hlimit, h⟩
  · cases h
    exact ⟨hp, rfl⟩
  · cases h
    exact ⟨hp.add hlimit hkey, enlists_add key p⟩

theorem intern_checkedSteps (key : List ℕ) (p : Progress) :
    (checkedSteps a limit).intern key p = (intern a limit key p).mapError .refused := by
  rw [intern, Steps.intern, Steps.intern]
  split
  case h_1 => rfl
  case h_2 =>
    dsimp only [checkedSteps]
    cases (steps a limit).permit p.keys.size <;> rfl

variable {os : List Outgoing} {scratch : SparseSet} (ha : InRange a)
  (ho : ∀ o ∈ os, o.target < a.size)

theorem pieces_bounded {ws : List (ℤ × ℤ)} {found : List (Span × Dfa.Transition)}
    {scratch' : SparseSet} (h : pieces a limit os ws p scratch = .ok (found, q, scratch'))
    (hp : Bounded a limit p) (hs : scratch.WellFormed) (hc : scratch.capacity = a.size) :
    Bounded a limit q ∧ Enlists p q := by
  induction ws generalizing p scratch found with
  | nil =>
    cases h
    exact ⟨hp, rfl⟩
  | cons w ws ih =>
    obtain ⟨start, stop⟩ := w
    rw [pieces_cons] at h
    split at h
    case h_1 => exact ih h hp hs hc
    case h_2 o more _ =>
      obtain ⟨⟨target, p'⟩, hi, h⟩ := ok_of_bind h
      obtain ⟨⟨later, q', scratch''⟩, hl, h⟩ := ok_of_bind h
      cases h
      obtain ⟨hr, hrc⟩ := reached_wellFormed (a := a) (o :: more) hs
      obtain ⟨hp', he'⟩ := intern_bounded hi hp fun j => lt_of_mem_keyOf hr (hrc.trans hc)
      obtain ⟨hq, he⟩ := ih hl hp' hr (hrc.trans hc)
      refine ⟨hq, ?_⟩
      unfold Enlists at he he' ⊢
      omega

include ha ho

theorem pieces_checkedSteps {ws : List (ℤ × ℤ)} (hws : ∀ w ∈ ws, Span.Valid ⟨w.1, w.2⟩)
    (hs : scratch.WellFormed) (hc : scratch.capacity = a.size) :
    (checkedSteps a limit).pieces os ws p scratch =
      (pieces a limit os ws p scratch).mapError .refused := by
  induction ws generalizing p scratch with
  | nil => rfl
  | cons w ws ih =>
    obtain ⟨start, stop⟩ := w
    have hrest : ∀ w ∈ ws, Span.Valid ⟨w.1, w.2⟩ := fun w hw => hws w (List.mem_cons_of_mem _ hw)
    rw [Steps.pieces, pieces_cons]
    cases hoffered : os.filter fun o => o.points.contains start with
    | nil => exact ih hrest hs hc
    | cons o more =>
      have hsub : ∀ o' ∈ o :: more, o'.target < a.size := fun o' ho' =>
        ho o' (List.mem_of_mem_filter (hoffered ▸ ho'))
      obtain ⟨hr, hrc⟩ := reached_wellFormed (a := a) (o :: more) hs
      have hreached : (checkedSteps a limit).reached (o :: more) scratch =
          .ok (reached a (o :: more) scratch) :=
        mapError_of_ok (checkedReached_eq ha hsub hs hc) _
      have hkey : (checkedSteps a limit).keyOf (reached a (o :: more) scratch) =
          .ok (keyOf a (reached a (o :: more) scratch)) :=
        mapError_of_ok (checkedKeyOf_eq hr (hrc.trans hc)) _
      have hspan : (checkedSteps a limit).span start stop = .ok ⟨start, stop⟩ :=
        mapError_of_ok (if_pos (hws _ List.mem_cons_self)) _
      dsimp only
      rw [bind_of_ok hreached, bind_of_ok hkey, intern_checkedSteps]
      cases hi : intern a limit (keyOf a (reached a (o :: more) scratch)) p with
      | error e => rfl
      | ok x =>
        obtain ⟨target, p'⟩ := x
        rw [bind_of_ok (mapError_of_ok rfl _), bind_of_ok (a := (target, p')) rfl]
        dsimp only
        rw [bind_of_ok hspan, ih hrest hr (hrc.trans hc)]
        cases pieces a limit os ws p' (reached a (o :: more) scratch) with
        | error e => rfl
        | ok y => rfl

end

/-- The cuts of sets lie in the domain, so that a piece between two of them is a span of points. -/
theorem valid_of_mem_windows {os : List Outgoing} {w : ℤ × ℤ}
    (hw : w ∈ Ascending.windows (cuts os)) : Span.Valid ⟨w.1, w.2⟩ := by
  have hdomain : ∀ c ∈ cuts os, Point.endOfInput ≤ c ∧ c ≤ Point.top := by
    intro c hc
    obtain ⟨o, -, r, hr, hend⟩ := mem_cuts.1 hc
    obtain ⟨h1, h2, h3⟩ := o.points.separated.bounds r hr
    rcases hend with rfl | rfl
    · exact ⟨h1, by omega⟩
    · exact ⟨by omega, h3⟩
  obtain ⟨start, stop⟩ := w
  have hlt := (Ascending.windows_adjacent (pairwise_cuts os) hw).1
  obtain ⟨h1, h2⟩ := List.of_mem_zip hw
  exact ⟨(hdomain start h1).1, hlt.le, (hdomain stop (List.mem_of_mem_tail h2)).2⟩

section

variable {a : Nfa} (ha : InRange a) {limit : ℕ} {p : Progress}

include ha

theorem complete_checkedSteps {rounds : ℕ} {scratch : SparseSet} (hi : Indexed p)
    (hp : Bounded a limit p) (hrounds : limit + p.waiting.length ≤ p.keys.size + rounds)
    (hs : scratch.WellFormed) (hc : scratch.capacity = a.size) :
    (checkedSteps a limit).complete (.error (.fault .outOfRange)) rounds p scratch =
      (complete a limit rounds p scratch).mapError .refused := by
  induction rounds generalizing p scratch with
  | zero =>
    -- As many states are worked out as there may be, so that none can wait.
    have hempty : p.waiting.isEmpty = true := by
      have := hp.size
      rw [List.isEmpty_iff_length_eq_zero]
      omega
    rw [Steps.complete, complete_zero, if_pos hempty, if_pos hempty]
    rfl
  | succ rounds ih =>
    obtain ⟨keys, index, maps, waiting⟩ := p
    cases waiting with
    | nil => rfl
    | cons id waiting =>
      have hid : id < keys.size := hi.waiting id List.mem_cons_self
      have hkey := hp.keys id _ (Array.getElem?_eq_getElem hid)
      have hp0 : Bounded a limit ⟨keys, index, maps, waiting⟩ := ⟨hp.size, hp.keys⟩
      have houtgoing : (checkedSteps a limit).outgoing keys id = .ok (outgoing a keys[id]) := by
        refine mapError_of_ok ?_ _
        rw [bind_of_ok (Fault.read_of_lt hid), checkedOutgoing_eq hkey]
      rw [Steps.complete, Steps.workOut, complete_succ, bind_of_ok houtgoing,
        pieces_checkedSteps ha (fun o => target_lt_of_mem_outgoing ha)
          (fun w => valid_of_mem_windows) hs hc,
        Array.getD_eq_getD_getElem?, Array.getElem?_eq_getElem hid, Option.getD_some]
      dsimp only
      cases hf : pieces a limit (outgoing a keys[id])
          (Ascending.windows (cuts (outgoing a keys[id]))) ⟨keys, index, maps, waiting⟩ scratch with
      | error e => rfl
      | ok x =>
        obtain ⟨found, ⟨keys', index', maps', waiting'⟩, scratch'⟩ := x
        obtain ⟨hq, he, ⟨hs', hc'⟩, -⟩ := pieces_spec hf hi.next hs hc
        obtain ⟨hb, henlists⟩ := pieces_bounded hf hp0 hs hc
        have hmaps : id < maps'.size := by
          rw [show maps'.size = keys'.size from hq.size]
          exact hid.trans_le he.size_le
        have hsettle : (checkedSteps a limit).settle maps' id (.ofPieces found) =
            .ok (maps'.setIfInBounds id (.ofPieces found)) :=
          mapError_of_ok (Fault.write_of_lt hmaps _) _
        rw [bind_of_ok (mapError_of_ok rfl _), bind_of_ok rfl]
        dsimp only
        rw [bind_of_ok hsettle, pure_bind]
        refine ih (hq.setMap _) ⟨hb.size, hb.keys⟩ ?_ hs' hc'
        simp only [Enlists, List.length_cons] at henlists hrounds ⊢
        omega

end

section

variable {a : Nfa} {limit : ℕ} {p q : Progress}

theorem complete_bounded {rounds : ℕ} {scratch : SparseSet}
    (h : complete a limit rounds p scratch = .ok q) (hi : Indexed p) (hp : Bounded a limit p)
    (hs : scratch.WellFormed) (hc : scratch.capacity = a.size) :
    Bounded a limit q ∧ q.maps.size = q.keys.size := by
  induction rounds generalizing p scratch with
  | zero =>
    rw [complete_zero] at h
    split at h
    · cases h
      exact ⟨hp, hi.size⟩
    · cases h
  | succ rounds ih =>
    obtain ⟨keys, index, maps, waiting⟩ := p
    cases waiting with
    | nil =>
      cases h
      exact ⟨hp, hi.size⟩
    | cons id waiting =>
      rw [complete_succ] at h
      obtain ⟨⟨found, ⟨keys', index', maps', waiting'⟩, scratch'⟩, hf, h⟩ := ok_of_bind h
      obtain ⟨hq, -, ⟨hs', hc'⟩, -⟩ := pieces_spec hf hi.next hs hc
      obtain ⟨hb, -⟩ := pieces_bounded hf ⟨hp.size, hp.keys⟩ hs hc
      exact ih h (hq.setMap _) ⟨hb.size, hb.keys⟩ hs' hc'

theorem checkedToDfa_eq (hp : Bounded a limit p) (hsize : p.maps.size = p.keys.size) :
    p.checkedToDfa a = .ok (p.toDfa a) := by
  have hdomains : ∀ key ∈ p.keys.toList, checkedDomainsOf a key = .ok (domainsOf a key) := by
    intro key hkey
    obtain ⟨id, hid⟩ := List.mem_iff_getElem?.1 hkey
    rw [Array.getElem?_toList] at hid
    exact checkedDomainsOf_eq (hp.keys id key hid)
  rw [Progress.checkedToDfa, bind_of_ok (Fault.mapM_eq_ok hdomains), Progress.toDfa]
  refine congrArg (fun states => Except.ok (⟨states, a.patterns⟩ : Dfa)) ?_
  refine Array.ext_getElem? fun id => ?_
  rw [List.getElem?_toArray, List.getElem?_zipWith, Array.getElem?_mapIdx, List.getElem?_map,
    Array.getElem?_toList, Array.getElem?_toList]
  by_cases hid : id < p.keys.size
  · rw [Array.getElem?_eq_getElem hid, Array.getElem?_eq_getElem (hsize ▸ hid),
      Array.getD_eq_getD_getElem?, Array.getElem?_eq_getElem (hsize ▸ hid)]
    rfl
  · rw [Array.getElem?_eq_none (Nat.le_of_not_lt hid),
      Array.getElem?_eq_none (by omega)]
    rfl

end

end Subset

namespace Nfa

variable {a : Nfa} {limit : Option ℕ}

/-- Subset construction comes to the same without leaving an array, whatever the limit is. -/
theorem checkedDeterminize_eq (ha : InRange a) (hsize : a.size ≤ Ident.capacity) :
    a.checkedDeterminize limit = (a.determinize limit).mapError .refused := by
  have hs0 := SparseSet.wellFormed_ofCapacity a.size
  have hc0 := SparseSet.capacity_ofCapacity a.size
  obtain ⟨hs, hc⟩ := Subset.closure_start_wellFormed a
  have hempty : SparseSet.checkedOfCapacity a.size = .ok (.ofCapacity a.size) := if_pos hsize
  rw [checkedDeterminize, determinize]
  dsimp only
  rw [bind_of_ok (mapError_of_ok hempty _),
    bind_of_ok (mapError_of_ok (Subset.checkedClosure_eq ha hs0 hc0 ha.start) _),
    bind_of_ok (mapError_of_ok (Subset.checkedKeyOf_eq hs hc) _)]
  rw [Subset.intern_checkedSteps]
  cases hi : Subset.intern a (min (limit.getD Ident.capacity) Ident.capacity)
      (Subset.keyOf a (Subset.closure a start (.ofCapacity a.size))) .initial with
  | error e => rfl
  | ok x =>
    obtain ⟨id, p⟩ := x
    obtain ⟨hindexed, -, -⟩ := Subset.intern_spec hi Subset.indexed_initial
    obtain ⟨hp, henlists⟩ := Subset.intern_bounded hi Subset.bounded_initial
      fun j => Subset.lt_of_mem_keyOf hs hc
    rw [bind_of_ok (mapError_of_ok rfl _), bind_of_ok rfl]
    dsimp only
    rw [Subset.complete_checkedSteps ha hindexed hp ?_ hs hc]
    · cases hq : Subset.complete a _ _ p _ with
      | error e => rfl
      | ok q =>
        obtain ⟨hq, hmaps⟩ := Subset.complete_bounded hq hindexed hp hs hc
        rw [bind_of_ok (mapError_of_ok rfl _), bind_of_ok rfl, Subset.checkedToDfa_eq hq hmaps]
        rfl
    · simp only [Subset.Enlists, Subset.Progress.initial, List.length_nil,
        List.size_toArray] at henlists
      omega

end Nfa

end PatternAutomata
