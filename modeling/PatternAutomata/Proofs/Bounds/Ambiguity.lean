import PatternAutomata.Proofs.Bounds.Access
import PatternAutomata.Proofs.Renumber
import PatternAutomata.Proofs.Search

/-!
The search for ambiguities by checked access, with links in place of inputs. A state has a link to
the one that it was found from, with the step taken; states that were found wait in a row to be
searched from; and the input of an ambiguous state is put together afterwards, by following the
links back. No state waits twice, so the row runs empty. Every link stands for the last step of the
input that the other search keeps, so as many links lead back to the start as that input has steps.
-/

set_option autoImplicit false

namespace PatternAutomata.Dfa

namespace Ambiguity

open Fault (read write)

/-- Where each state was found from and by which step, which states were found, and the states that
wait, the one found first before the others. -/
structure Discovery where
  links : Array (Option (ℕ × Step))
  seen : Array Bool
  queue : List ℕ

def discover (id : ℕ) (t : Discovery) (transition : Span × Transition) :
    Except Fault Discovery := do
  if ← read t.seen transition.2.target then return t
  else match step? transition.1 with
    | none => return t
    | some step =>
      let seen ← write t.seen transition.2.target true
      let links ← write t.links transition.2.target (some (id, step))
      return ⟨links, seen, t.queue ++ [transition.2.target]⟩

def discoverAll (d : Dfa) : (rounds : ℕ) → Discovery → Except Fault Discovery
  | _, ⟨links, seen, []⟩ => .ok ⟨links, seen, []⟩
  | 0, ⟨_, _, _ :: _⟩ => .error .outOfRange
  | rounds + 1, ⟨links, seen, id :: queue⟩ => do
    let state ← read d.states id
    let t ← state.transitions.valued.foldlM (discover id) ⟨links, seen, queue⟩
    discoverAll d rounds t

def checkedSearch (d : Dfa) : Except Fault Discovery := do
  let seen ← write (Array.replicate d.size false) start true
  discoverAll d d.size ⟨Array.replicate d.size none, seen, [start]⟩

/-- Follows the links back to a state that has none. The steps in hand lead on from `id`. It is a
fault if more links are followed than there may be. -/
def retrace (links : Array (Option (ℕ × Step))) : (bound id : ℕ) → (steps : List Step) →
    Except Fault (List Step)
  | 0, id, steps => do
    match ← read links id with
    | none => return steps
    | some _ => .error .outOfRange
  | bound + 1, id, steps => do
    match ← read links id with
    | none => return steps
    | some (previous, step) => retrace links bound previous (step :: steps)

def checkedOfState? (d : Dfa) (t : Discovery) (id : ℕ) : Except Fault (Option Ambiguity) := do
  let state ← read d.states id
  if (← read t.seen id) && state.isAmbiguous then
    let steps ← retrace t.links d.size id []
    return some ⟨id, state.domains, steps⟩
  else return none

end Ambiguity

def checkedAmbiguities (d : Dfa) : Except Fault (List Ambiguity) := do
  let t ← Ambiguity.checkedSearch d
  let found ← (List.range d.size).mapM (Ambiguity.checkedOfState? d t)
  return found.filterMap id

namespace Ambiguity

open Fault (read)

/-! ### Links and inputs -/

def LinkedBy (links : Array (Option (ℕ × Step))) (s : Search) (q : ℕ) : (path : List Step) → Prop
  | [] => links[q]? = some none
  | step :: rest => ∃ p, links[q]? = some (some (p, step)) ∧ s.path? p = some rest

/-- The two searches have found the same states, and of those the same wait: the states `rest` of
one level, and behind them the states of the next level that were found so far. -/
structure Linked (d : Dfa) (rest : List ℕ) (s : Search) (t : Discovery) : Prop where
  size : s.paths.size = d.size
  links : t.links.size = d.size
  seen : t.seen = s.paths.map Option.isSome
  linked : ∀ q path, s.path? q = some path → LinkedBy t.links s q path
  queue : t.queue = rest ++ s.found.reverse
  known : ∀ q ∈ t.queue, s.isKnown q = true

def Discovery.work (t : Discovery) : ℕ := t.queue.length + t.seen.toList.count false

theorem LinkedBy.extend {links links' : Array (Option (ℕ × Step))} {s s' : Search} {q : ℕ}
    {path : List Step} (h : LinkedBy links s q path) (hq : links'[q]? = links[q]?)
    (hext : s.Extends s') : LinkedBy links' s' q path := by
  cases path with
  | nil => exact hq.trans h
  | cons step rest =>
    obtain ⟨p, hlink, hp⟩ := h
    exact ⟨p, hq.trans hlink, hext p rest hp⟩

section

variable {d : Dfa} {rest : List ℕ} {s : Search} {t : Discovery} (h : Linked d rest s t)

include h

theorem Linked.read_seen {q : ℕ} (hq : q < d.size) : read t.seen q = .ok (s.isKnown q) := by
  have hlt : q < s.paths.size := h.size ▸ hq
  rw [Fault.read_eq_ok, h.seen, Array.getElem?_map, Search.isKnown, Array.getD_eq_getD_getElem?,
    Array.getElem?_eq_getElem hlt, Option.map_some, Option.getD_some]

theorem Linked.lt_of_isKnown {q : ℕ} (hq : s.isKnown q = true) : q < d.size := by
  by_contra hge
  rw [Search.isKnown, Array.getD_eq_getD_getElem?,
    Array.getElem?_eq_none (h.size.trans_le (Nat.le_of_not_lt hge))] at hq
  cases hq

theorem Linked.insert {id target : ℕ} {path : List Step} (step : Step)
    (hpath : s.path? id = some path) (htarget : target < d.size)
    (hnew : s.isKnown target = false) :
    s.Extends ⟨s.paths.setIfInBounds target (some (step :: path)), target :: s.found⟩ ∧
      Linked d rest ⟨s.paths.setIfInBounds target (some (step :: path)), target :: s.found⟩
        ⟨t.links.setIfInBounds target (some (id, step)), t.seen.setIfInBounds target true,
          t.queue ++ [target]⟩ ∧
      Discovery.work ⟨t.links.setIfInBounds target (some (id, step)),
        t.seen.setIfInBounds target true, t.queue ++ [target]⟩ = t.work := by
  have hlt : target < s.paths.size := h.size ▸ htarget
  have hnone : s.path? target = none := by
    rwa [Search.isKnown_eq, Option.isSome_eq_false_iff, Option.isNone_iff_eq_none] at hnew
  have hpaths := Search.path?_setIfInBounds hlt (step :: path) (target :: s.found)
  have hne : ∀ {q path}, s.path? q = some path → q ≠ target := by
    rintro q path hq rfl
    rw [hnone] at hq
    cases hq
  have hext :
      s.Extends ⟨s.paths.setIfInBounds target (some (step :: path)), target :: s.found⟩ := by
    intro q p hq
    rw [hpaths, if_neg (hne hq), hq]
  refine ⟨hext, ⟨?_, ?_, ?_, fun q p hq => ?_, ?_, fun q hq => ?_⟩, ?_⟩
  · rw [Array.size_setIfInBounds, h.size]
  · rw [Array.size_setIfInBounds, h.links]
  · rw [h.seen, Array.map_setIfInBounds]
    rfl
  · rw [hpaths] at hq
    split at hq
    case isTrue heq =>
      cases hq
      subst heq
      refine ⟨id, ?_, hext id path hpath⟩
      exact Array.getElem?_setIfInBounds_self_of_lt (h.links.symm ▸ htarget)
    case isFalse hq' =>
      exact (h.linked q p hq).extend (Array.getElem?_setIfInBounds_ne (Ne.symm hq')) hext
  · rw [h.queue, List.reverse_cons, List.append_assoc]
  · rcases List.mem_append.1 hq with hq | hq
    · exact hext.isKnown (h.known q hq)
    · rw [List.mem_singleton.1 hq]
      exact Search.isKnown_of_path? ((hpaths target).trans (if_pos rfl))
  · -- One more waits, and one less is left to be found.
    have hseen : target < t.seen.toList.length := by
      rw [h.seen, Array.length_toList, Array.size_map]
      exact hlt
    have hfalse : t.seen.toList[target] = false := by
      have hread := Fault.read_eq_ok.1 (h.read_seen htarget)
      rw [hnew, ← Array.getElem?_toList, List.getElem?_eq_getElem hseen] at hread
      exact Option.some.inj hread
    have hpos : 0 < t.seen.toList.count false :=
      List.count_pos_iff.2 (hfalse ▸ List.getElem_mem hseen)
    have hcount : (t.seen.toList.set target true).count false + 1 =
        t.seen.toList.count false := by
      rw [List.count_set hseen, hfalse, if_pos (beq_self_eq_true false), if_neg (by decide)]
      omega
    rw [Discovery.work, Discovery.work, Array.toList_setIfInBounds, List.length_append,
      List.length_singleton]
    omega

theorem Linked.discover {id : ℕ} {path : List Step} (hpath : s.path? id = some path)
    {x : Span × Transition} (hx : x.2.target < d.size) :
    s.Extends (follow path s x) ∧ ∃ t', discover id t x = .ok t' ∧
      Linked d rest (follow path s x) t' ∧ t'.work = t.work := by
  rw [Ambiguity.discover, bind_of_ok (h.read_seen hx), follow]
  cases hknown : s.isKnown x.2.target with
  | true => exact ⟨fun _ _ hq => hq, t, rfl, h, rfl⟩
  | false =>
    simp only [Bool.false_eq_true, if_false]
    cases step? x.1 with
    | none => exact ⟨fun _ _ hq => hq, t, rfl, h, rfl⟩
    | some step =>
      obtain ⟨hext, hlinked, hwork⟩ := h.insert step hpath hx hknown
      have hseen : x.2.target < t.seen.size := by
        rw [h.seen, Array.size_map, h.size]
        exact hx
      dsimp only
      rw [bind_of_ok (Fault.write_of_lt hseen _),
        bind_of_ok (Fault.write_of_lt (h.links.symm ▸ hx) _)]
      exact ⟨hext, _, rfl, hlinked, hwork⟩

theorem Linked.foldlM_discover {id : ℕ} {path : List Step} (hpath : s.path? id = some path)
    {xs : List (Span × Transition)} (hxs : ∀ x ∈ xs, x.2.target < d.size) :
    ∃ t', xs.foldlM (Ambiguity.discover id) t = .ok t' ∧
      Linked d rest (xs.foldl (follow path) s) t' ∧ t'.work = t.work := by
  induction xs generalizing s t with
  | nil => exact ⟨t, rfl, h, rfl⟩
  | cons x xs ih =>
    obtain ⟨hext, t', ht', hlinked, hwork⟩ := h.discover hpath (hxs x List.mem_cons_self)
    obtain ⟨t'', ht'', hlinked, hwork'⟩ := ih hlinked (hext id path hpath)
      fun y hy => hxs y (List.mem_cons_of_mem _ hy)
    refine ⟨t'', ?_, hlinked, hwork'.trans hwork⟩
    rw [List.foldlM_cons, bind_of_ok ht', ht'']

end

/-! ### The row runs empty -/

section

variable {d : Dfa} (hd : d.InRange)

include hd

/-- A round takes the state that waits first, and leaves less to do. -/
theorem Linked.visit {id : ℕ} {rest : List ℕ} {s : Search} {links : Array (Option (ℕ × Step))}
    {seen : Array Bool} {queue : List ℕ}
    (h : Linked d (id :: rest) s ⟨links, seen, id :: queue⟩) (rounds : ℕ) :
    ∃ t', discoverAll d (rounds + 1) ⟨links, seen, id :: queue⟩ = discoverAll d rounds t' ∧
      Linked d rest (Ambiguity.visit d s id) t' ∧
      t'.work + 1 = Discovery.work ⟨links, seen, id :: queue⟩ := by
  have hqueue : queue = rest ++ s.found.reverse := (List.cons.inj h.queue).2
  have hnext : Linked d rest s ⟨links, seen, queue⟩ :=
    ⟨h.size, h.links, h.seen, h.linked, hqueue, fun q hq => h.known q (List.mem_cons_of_mem _ hq)⟩
  have hid := h.known id List.mem_cons_self
  obtain ⟨path, hpath⟩ := Option.isSome_iff_exists.1 hid
  have hlt : id < d.states.size := h.lt_of_isKnown hid
  have hstate : d.states[id]? = some d.states[id] := Array.getElem?_eq_getElem hlt
  obtain ⟨t', ht', hlinked, hwork⟩ := hnext.foldlM_discover hpath fun x hx =>
    hd.target_of_mem_valued hstate hx
  have hvisit : Ambiguity.visit d s id =
      d.states[id].transitions.valued.foldl (follow path) s := by
    rw [Ambiguity.visit, hstate, show s.paths.getD id none = some path from hpath]
  refine ⟨t', ?_, hvisit ▸ hlinked, ?_⟩
  · rw [discoverAll, bind_of_ok (Fault.read_eq_ok.2 hstate), bind_of_ok ht']
  · simp only [Discovery.work, List.length_cons] at hwork ⊢
    omega

omit hd in
theorem searchLevels_of_found {s : Search} (hfound : s.found = []) (levels : ℕ) :
    searchLevels d levels s = s := by
  cases levels with
  | zero => rfl
  | succ levels => rw [searchLevels, hfound]

omit hd in
theorem Linked.exists_cons {id : ℕ} {queue rest : List ℕ} {s : Search} {t : Discovery}
    {levels : ℕ} (h : Linked d rest s t) (hqueue : t.queue = id :: queue)
    (hlevels : (searchLevels d levels (rest.foldl (Ambiguity.visit d) s)).found = []) :
    ∃ rest' s' levels', Linked d (id :: rest') s' t ∧
      searchLevels d levels (rest.foldl (Ambiguity.visit d) s) =
        searchLevels d levels' ((id :: rest').foldl (Ambiguity.visit d) s') := by
  have hwaiting := h.queue.symm.trans hqueue
  cases rest with
  | cons id' rest =>
    cases (List.cons.inj hwaiting).1
    exact ⟨rest, s, levels, h, rfl⟩
  | nil =>
    have hreverse : s.found.reverse = id :: queue := hwaiting
    have hfound : s.found ≠ [] := by
      intro hnil
      rw [hnil] at hreverse
      cases hreverse
    cases levels with
    | zero => exact absurd hlevels hfound
    | succ levels =>
      refine ⟨queue, { s with found := [] }, levels, ?_, ?_⟩
      · refine ⟨h.size, h.links, h.seen, h.linked, ?_, h.known⟩
        rw [hqueue]
        exact (List.append_nil _).symm
      · rw [List.foldl_nil, searchLevels, ← hreverse]
        split
        case h_1 hnil => exact absurd hnil hfound
        case h_2 => rfl

/-- Searching on from the states in a row does what searching on level by level does. -/
theorem Linked.discoverAll {rounds levels : ℕ} {rest : List ℕ} {s : Search} {t : Discovery}
    (h : Linked d rest s t) (hrounds : t.work ≤ rounds)
    (hlevels : (searchLevels d levels (rest.foldl (Ambiguity.visit d) s)).found = []) :
    ∃ t', Ambiguity.discoverAll d rounds t = .ok t' ∧
      Linked d [] (searchLevels d levels (rest.foldl (Ambiguity.visit d) s)) t' := by
  induction rounds generalizing levels rest s t with
  | zero =>
    obtain ⟨links, seen, queue⟩ := t
    obtain rfl : queue = [] := List.eq_nil_of_length_eq_zero (by
      simp only [Discovery.work] at hrounds
      omega)
    obtain ⟨rfl, hfound⟩ := List.append_eq_nil_iff.1 h.queue.symm
    rw [List.foldl_nil, searchLevels_of_found (List.reverse_eq_nil_iff.1 hfound)]
    exact ⟨_, rfl, h⟩
  | succ rounds ih =>
    obtain ⟨links, seen, queue⟩ := t
    cases queue with
    | nil =>
      obtain ⟨rfl, hfound⟩ := List.append_eq_nil_iff.1 h.queue.symm
      rw [List.foldl_nil, searchLevels_of_found (List.reverse_eq_nil_iff.1 hfound)]
      exact ⟨_, rfl, h⟩
    | cons id queue =>
      obtain ⟨rest', s', levels', hnext, hsame⟩ := h.exists_cons rfl hlevels
      rw [hsame, List.foldl_cons] at hlevels ⊢
      obtain ⟨t', hround, hlinked, hwork⟩ := hnext.visit hd rounds
      rw [hround]
      exact ih hlinked (by omega) hlevels

theorem linked_initial : Linked d []
    ⟨(Array.replicate d.size none).setIfInBounds start (some []), [start]⟩
    ⟨Array.replicate d.size none, (Array.replicate d.size false).setIfInBounds start true,
      [start]⟩ := by
  have hpath := path?_initial hd
  refine ⟨?_, Array.size_replicate, ?_, fun q path hq => ?_, rfl, fun q hq => ?_⟩
  · rw [Array.size_setIfInBounds, Array.size_replicate]
  · rw [Array.map_setIfInBounds, Array.map_replicate]
    rfl
  · rw [hpath] at hq
    split at hq
    case isTrue heq =>
      cases hq
      subst heq
      exact (Array.getElem?_eq_getElem (by rw [Array.size_replicate]; exact hd.start)).trans
        (congrArg some (Array.getElem_replicate _))
    case isFalse => cases hq
  · rw [List.mem_singleton.1 hq]
    exact Search.isKnown_of_path? ((hpath start).trans (if_pos rfl))

theorem exists_checkedSearch : ∃ t, checkedSearch d = .ok t ∧ Linked d [] (search d) t := by
  have hstart : start < (Array.replicate d.size false).size := by
    rw [Array.size_replicate]
    exact hd.start
  obtain ⟨k, -, hfound⟩ := level_search hd
  rw [checkedSearch, bind_of_ok (Fault.write_of_lt hstart _)]
  refine (linked_initial hd).discoverAll hd ?_ hfound
  have hcount : ((Array.replicate d.size false).setIfInBounds start true).toList.count false + 1 =
      d.size := by
    have hpos := hd.start
    have hlt : start < (List.replicate d.size false).length := by
      rw [List.length_replicate]
      exact hpos
    rw [Array.toList_setIfInBounds, Array.toList_replicate, List.count_set hlt,
      List.getElem_replicate, List.count_replicate_self, if_pos (beq_self_eq_true false),
      if_neg (by decide)]
    omega
  simp only [Discovery.work, List.length_singleton]
  omega

/-! ### Following the links back -/

omit hd in
theorem Linked.retrace {rest : List ℕ} {s : Search} {t : Discovery} (h : Linked d rest s t)
    {bound q : ℕ} {path : List Step} (steps : List Step) (hpath : s.path? q = some path)
    (hbound : path.length ≤ bound) :
    Ambiguity.retrace t.links bound q steps = .ok (path.reverse ++ steps) := by
  induction bound generalizing q path steps with
  | zero =>
    obtain rfl := List.eq_nil_of_length_eq_zero (Nat.le_zero.1 hbound)
    rw [Ambiguity.retrace, bind_of_ok (Fault.read_eq_ok.2 (h.linked q [] hpath))]
    rfl
  | succ bound ih =>
    cases path with
    | nil =>
      rw [Ambiguity.retrace, bind_of_ok (Fault.read_eq_ok.2 (h.linked q [] hpath))]
      rfl
    | cons step path =>
      obtain ⟨p, hlink, hp⟩ := h.linked q _ hpath
      rw [Ambiguity.retrace, bind_of_ok (Fault.read_eq_ok.2 hlink), List.reverse_cons,
        List.append_assoc]
      exact ih _ hp (Nat.le_of_succ_le_succ hbound)

omit hd in
theorem target?_append_steps (xs ys : List Step) :
    target? d (xs ++ ys) = (target? d xs).bind fun q => d.run? q (ys.map Step.point) := by
  rw [target?, List.map_append, run?_append, target?]

omit hd in
theorem exists_target?_take {steps : List Step} {q : ℕ} (h : target? d steps = some q) (i : ℕ) :
    ∃ r, target? d (steps.take i) = some r ∧
      d.run? r ((steps.drop i).map Step.point) = some q := by
  rw [← List.take_append_drop i steps, target?_append_steps] at h
  exact Option.bind_eq_some_iff.1 h

/-- An input that meets a state twice could be made shorter. -/
theorem length_lt_size {steps : List Step} {q : ℕ} (h : target? d steps = some q)
    (hshortest : ∀ others, target? d others = some q → steps.length ≤ others.length) :
    steps.length < d.size := by
  choose met hmet hrest using exists_target?_take h
  by_contra hge
  obtain ⟨i, hi, j, hj, hne, heq⟩ : ∃ i ∈ Finset.range (steps.length + 1),
      ∃ j ∈ Finset.range (steps.length + 1), i ≠ j ∧ met i = met j := by
    refine Finset.exists_ne_map_eq_of_card_lt_of_maps_to (t := Finset.range d.size) ?_ fun i _ => ?_
    · rw [Finset.card_range, Finset.card_range]
      omega
    · exact Finset.mem_coe.2 (Finset.mem_range.2 (hd.run?_lt hd.start (hmet i)))
  wlog hlt : i < j generalizing i j
  · exact this j hj i hi hne.symm heq.symm (by omega)
  have hj := Finset.mem_range.1 hj
  have hcut : target? d (steps.take i ++ steps.drop j) = some q := by
    rw [target?_append_steps, hmet, Option.bind_some, heq, hrest]
  have := hshortest _ hcut
  rw [List.length_append, List.length_take, List.length_drop] at this
  omega

theorem length_path_lt {q : ℕ} {path : List Step} (hpath : (search d).path? q = some path) :
    path.length < d.size := by
  have hdone := search_spec hd
  rw [← List.length_reverse]
  refine length_lt_size hd (hdone.reaches q path hpath) fun others hothers => ?_
  rw [List.length_reverse]
  exact hdone.shortest q path hpath others hothers

end

end Ambiguity

/-- The ambiguities are found without leaving an array, and with inputs put together from links. -/
theorem checkedAmbiguities_eq {d : Dfa} (hd : d.InRange) :
    d.checkedAmbiguities = .ok d.ambiguities := by
  obtain ⟨t, ht, hlinked⟩ := Ambiguity.exists_checkedSearch hd
  have hstates : ∀ q ∈ List.range d.size, Ambiguity.checkedOfState? d t q =
      .ok (Ambiguity.ofState? d (Ambiguity.search d) q) := by
    intro q hq
    have hlt : q < d.states.size := List.mem_range.1 hq
    rw [Ambiguity.checkedOfState?, bind_of_ok (Fault.read_of_lt hlt),
      bind_of_ok (hlinked.read_seen hlt), Ambiguity.Search.isKnown_eq, Ambiguity.ofState?,
      Array.getElem?_eq_getElem hlt]
    cases hpath : (Ambiguity.search d).path? q with
    | none =>
      rw [show (Ambiguity.search d).paths.getD q none = none from hpath]
      rfl
    | some path =>
      rw [show (Ambiguity.search d).paths.getD q none = some path from hpath]
      have hsteps := hlinked.retrace [] hpath (Ambiguity.length_path_lt hd hpath).le
      rw [List.append_nil] at hsteps
      dsimp only
      rw [Option.isSome_some, Bool.true_and]
      split
      case isTrue => rw [bind_of_ok hsteps]; rfl
      case isFalse => rfl
  rw [checkedAmbiguities, bind_of_ok ht, bind_of_ok (Fault.mapM_eq_ok hstates), ambiguities,
    List.filterMap_map]
  rfl

end PatternAutomata.Dfa
