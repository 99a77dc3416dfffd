import PatternAutomata.Dfa.Ambiguity
import PatternAutomata.Language
import PatternAutomata.Proofs.PointMap
import PatternAutomata.Proofs.PointSet
import Mathlib.Data.Finset.Card
import Mathlib.Data.Finset.Range

/-!
The search in breadth for ambiguous states. Each level of it finds the states that are one step
further away; in the end a state is known if and only if some input leads to it, and it was found by
a shortest one.
-/

set_option autoImplicit false

namespace PatternAutomata

/-! ### Steps -/

namespace Dfa

theorem Step.feedable (st : Step) : Node.Feedable st.point := by
  cases st with
  | char c =>
    right
    rw [point, Point.char?_ofChar]
    rfl
  | endOfInput => exact .inl rfl

theorem exists_step {p : ℤ} (h : Node.Feedable p) : ∃ st : Step, st.point = p := by
  rcases h with rfl | h
  · exact ⟨.endOfInput, rfl⟩
  · obtain ⟨c, hc⟩ := Option.isSome_iff_exists.1 h
    exact ⟨.char c, Point.ofChar_of_char? hc⟩

/-- The words that a matcher can be given are the inputs made of steps. -/
theorem exists_steps {w : List ℤ} (h : ∀ p ∈ w, Node.Feedable p) :
    ∃ steps : List Step, steps.map Step.point = w := by
  induction w with
  | nil => exact ⟨[], rfl⟩
  | cons p w ih =>
    obtain ⟨st, rfl⟩ := exists_step (h p List.mem_cons_self)
    obtain ⟨steps, rfl⟩ := ih fun p hp => h p (List.mem_cons_of_mem _ hp)
    exact ⟨st :: steps, rfl⟩

namespace Ambiguity

section

variable {r : Span}

theorem firstChar?_eq_some_iff {c : Char} : firstChar? r = some c ↔
    ∃ start, start < r.stop ∧ Point.char? start = some c ∧
      start = if Span.surrogates.contains (max r.start 0) then Span.surrogates.stop
        else max r.start 0 := by
  rw [firstChar?]
  generalize (if Span.surrogates.contains (max r.start 0) then Span.surrogates.stop
    else max r.start 0) = start
  constructor
  · intro h
    split at h
    case isTrue hlt => exact ⟨start, hlt, h, rfl⟩
    case isFalse => cases h
  · rintro ⟨_, hlt, hc, rfl⟩
    rw [if_pos hlt, hc]

theorem contains_of_firstChar? {c : Char} (h : firstChar? r = some c) :
    r.contains (Point.ofChar c) = true := by
  obtain ⟨start, hlt, hc, hstart⟩ := firstChar?_eq_some_iff.1 h
  rw [Point.ofChar_of_char? hc, Span.contains_iff]
  refine ⟨?_, hlt⟩
  split at hstart
  case isTrue hs =>
    have := (Span.contains_iff.1 hs).2
    simp only [Span.surrogates] at this hstart
    omega
  case isFalse => omega

theorem isSome_firstChar? (htop : r.stop ≤ Point.top) {p : ℤ} (hp : r.contains p = true)
    (hc : (Point.char? p).isSome = true) : (firstChar? r).isSome = true := by
  have hbounds := Span.contains_iff.1 hp
  rw [Point.isSome_char?_iff] at hc
  have hfirst : ∀ start, start < r.stop → (0 ≤ start ∧ start < 0xD800) ∨ 0xE000 ≤ start →
      (start = if Span.surrogates.contains (max r.start 0) then Span.surrogates.stop
        else max r.start 0) → (firstChar? r).isSome = true := by
    intro start hlt hnot hstart
    have hsome : (Point.char? start).isSome = true := by
      rw [Point.isSome_char?_iff]
      omega
    obtain ⟨c, hc⟩ := Option.isSome_iff_exists.1 hsome
    rw [firstChar?_eq_some_iff.2 ⟨start, hlt, hc, hstart⟩]
    rfl
  by_cases hs : Span.surrogates.contains (max r.start 0) = true
  · have := Span.contains_iff.1 hs
    simp only [Span.surrogates] at this
    exact hfirst 0xE000 (by omega) (.inr le_rfl) (by rw [if_pos hs]; rfl)
  · have := mt Span.contains_iff.2 hs
    simp only [Span.surrogates] at this
    exact hfirst (max r.start 0) (by omega) (by omega) (by rw [if_neg hs])

theorem bounds_of_mem_preferred {s : Span} (h : s ∈ preferred) : 0 ≤ s.start ∧ s.stop ≤ 0xD800 := by
  have hall : ∀ s ∈ preferred, 0 ≤ s.start ∧ s.stop ≤ 0xD800 := by decide
  exact hall s h

theorem contains_of_representative? {c : Char} (h : representative? r = some c) :
    r.contains (Point.ofChar c) = true := by
  unfold representative? at h
  split at h
  case h_1 s hs =>
    obtain ⟨t, -, rfl⟩ := List.mem_map.1 (List.mem_of_find?_eq_some hs)
    have hne := List.find?_some hs
    rw [Bool.not_eq_true', ← Bool.not_eq_true, Span.isEmpty_iff] at hne
    rw [Point.ofChar_of_char? h, Span.contains_iff]
    simp only [Span.overlap] at hne ⊢
    omega
  case h_2 => exact contains_of_firstChar? h

theorem isSome_representative? (htop : r.stop ≤ Point.top) {p : ℤ} (hp : r.contains p = true)
    (hc : (Point.char? p).isSome = true) : (representative? r).isSome = true := by
  unfold representative?
  split
  case h_1 s hs =>
    obtain ⟨t, ht, rfl⟩ := List.mem_map.1 (List.mem_of_find?_eq_some hs)
    have hne := List.find?_some hs
    rw [Bool.not_eq_true', ← Bool.not_eq_true, Span.isEmpty_iff] at hne
    have := bounds_of_mem_preferred ht
    rw [Point.isSome_char?_iff]
    simp only [Span.overlap] at hne ⊢
    omega
  case h_2 => exact isSome_firstChar? htop hp hc

theorem contains_of_step? {st : Step} (h : step? r = some st) : r.contains st.point = true := by
  unfold step? at h
  split at h
  case h_1 c hc =>
    cases h
    exact contains_of_representative? hc
  case h_2 =>
    split at h
    case isTrue he =>
      cases h
      exact he
    case isFalse => cases h

/-- A span is passed over only if it holds nothing but surrogates. -/
theorem isSome_step? (htop : r.stop ≤ Point.top) {p : ℤ} (hp : r.contains p = true)
    (hf : Node.Feedable p) : (step? r).isSome = true := by
  unfold step?
  split
  case h_1 => rfl
  case h_2 hnone =>
    rcases hf with rfl | hc
    · rw [if_pos hp]
      rfl
    · have hsome := isSome_representative? htop hp hc
      rw [hnone] at hsome
      cases hsome

end

/-! ### Transitions by steps -/

theorem next?_of_mem_valued {d : Dfa} {q : ℕ} {s : State} (hs : d.states[q]? = some s) {r : Span}
    {t : Transition} (hr : (r, t) ∈ s.transitions.valued) {st : Step} (hst : step? r = some st) :
    d.next? q st.point = some t.target := by
  have hrun := (PointMap.mem_valued _).1 hr
  rw [next?, transition?, hs, Option.bind_some,
    PointMap.get?_of_mem_runs _ hrun (contains_of_step? hst)]
  rfl

theorem exists_mem_valued {d : Dfa} {q q' : ℕ} {s : State} (hs : d.states[q]? = some s) {st : Step}
    (h : d.next? q st.point = some q') :
    ∃ r t, (r, t) ∈ s.transitions.valued ∧ t.target = q' ∧ (step? r).isSome = true := by
  obtain ⟨t, ht, rfl⟩ := Option.map_eq_some_iff.1 h
  rw [transition?, hs, Option.bind_some] at ht
  obtain ⟨run, hrun, hc⟩ := s.transitions.exists_mem_runs (PointMap.inDomain_of_get? ht)
  have hvalue := (PointMap.get?_of_mem_runs _ hrun hc).symm.trans ht
  have hbounds := PointMap.run_bounds _ hrun
  refine ⟨run.span, t, (PointMap.mem_valued _).2 ?_, rfl, isSome_step? hbounds.2.2 hc st.feedable⟩
  rw [← hvalue]
  exact hrun

/-! ### Levels -/

def Search.path? (s : Search) (q : ℕ) : Option (List Step) := s.paths.getD q none

def target? (d : Dfa) (steps : List Step) : Option ℕ := d.run? start (steps.map Step.point)

theorem target?_append (d : Dfa) (steps : List Step) (st : Step) :
    target? d (steps ++ [st]) = (target? d steps).bind fun q => d.next? q st.point := by
  rw [target?, List.map_append, run?_append, List.map_singleton]
  simp only [run?_singleton, target?]

/-- What holds of a search at any time: what it has found was found by shortest inputs. -/
structure Sound (d : Dfa) (s : Search) : Prop where
  size : s.paths.size = d.size
  reaches : ∀ q path, s.path? q = some path → target? d path.reverse = some q
  shortest : ∀ q path, s.path? q = some path → ∀ steps, target? d steps = some q →
    path.length ≤ steps.length

theorem Sound.target?_append {d : Dfa} {s : Search} (h : Sound d s) {p q : ℕ} {path : List Step}
    (hpath : s.path? p = some path) {st : Step} (hnext : d.next? p st.point = some q) :
    target? d (path.reverse ++ [st]) = some q := by
  rw [Ambiguity.target?_append, h.reaches p path hpath]
  exact hnext

def Known (d : Dfa) (k : ℕ) (s : Search) : Prop :=
  ∀ steps q, steps.length ≤ k → target? d steps = some q → s.isKnown q = true

/-- A search that goes on from states `k` steps away, some of the way through them. -/
structure Between (d : Dfa) (k : ℕ) (s : Search) : Prop extends Sound d s where
  known : Known d k s
  found : ∀ q, q ∈ s.found ↔ ∃ path, s.path? q = some path ∧ path.length = k + 1
  near : ∀ q path, s.path? q = some path → path.length ≤ k + 1

def Search.Extends (s t : Search) : Prop := ∀ q path, s.path? q = some path → t.path? q = some path

theorem Search.isKnown_eq (s : Search) (q : ℕ) : s.isKnown q = (s.path? q).isSome := rfl

theorem Search.Extends.isKnown {s t : Search} (h : s.Extends t) {q : ℕ} (hq : s.isKnown q = true) :
    t.isKnown q = true := by
  rw [isKnown_eq] at hq ⊢
  obtain ⟨path, hp⟩ := Option.isSome_iff_exists.1 hq
  rw [h q path hp]
  rfl

theorem Search.path?_setIfInBounds {s : Search} {id : ℕ} (hid : id < s.paths.size)
    (path : List Step) (found : List ℕ) (q : ℕ) :
    (Search.mk (s.paths.setIfInBounds id (some path)) found).path? q =
      if q = id then some path else s.path? q := by
  simp only [path?, Array.getD_eq_getD_getElem?]
  split
  case isTrue h =>
    rw [h, Array.getElem?_setIfInBounds_self_of_lt hid]
    rfl
  case isFalse h => rw [Array.getElem?_setIfInBounds_ne (Ne.symm h)]

/-- Makes a state known that is new, by one of its shortest inputs. -/
theorem Between.insert {d : Dfa} {k : ℕ} {s : Search} (h : Between d k s) {id : ℕ}
    {path : List Step} (hid : id < s.paths.size) (hnone : s.path? id = none)
    (htarget : target? d path.reverse = some id) (hlength : path.length = k + 1)
    (hfar : ∀ steps, target? d steps = some id → k < steps.length) :
    Between d k ⟨s.paths.setIfInBounds id (some path), id :: s.found⟩ ∧
      s.Extends ⟨s.paths.setIfInBounds id (some path), id :: s.found⟩ := by
  have hpath := Search.path?_setIfInBounds hid path (id :: s.found)
  have hext : s.Extends ⟨s.paths.setIfInBounds id (some path), id :: s.found⟩ := by
    intro q p hp
    rw [hpath, if_neg, hp]
    rintro rfl
    rw [hnone] at hp
    cases hp
  refine ⟨⟨⟨?_, ?_, ?_⟩, ?_, ?_, ?_⟩, hext⟩
  · rw [Array.size_setIfInBounds, h.size]
  · intro q p hp
    rw [hpath] at hp
    split at hp
    case isTrue hq =>
      cases hp
      rw [htarget, hq]
    case isFalse => exact h.reaches q p hp
  · intro q p hp steps hsteps
    rw [hpath] at hp
    split at hp
    case isTrue hq =>
      cases hp
      rw [hlength]
      exact hfar steps (hq ▸ hsteps)
    case isFalse => exact h.shortest q p hp steps hsteps
  · intro steps q hle hsteps
    exact hext.isKnown (h.known steps q hle hsteps)
  · intro q
    rw [List.mem_cons, h.found, hpath]
    by_cases hq : q = id
    · subst hq
      simp [hlength]
    · simp [hq]
  · intro q p hp
    rw [hpath] at hp
    split at hp
    case isTrue =>
      cases hp
      exact hlength.le
    case isFalse => exact h.near q p hp

section

variable {d : Dfa} (hd : d.InRange) {k : ℕ}

include hd

theorem follow_spec {s : Search} (h : Between d k s) {id : ℕ} {state : State}
    (hs : d.states[id]? = some state) {path : List Step} (hpath : s.path? id = some path)
    (hlength : path.length = k) {r : Span} {t : Transition}
    (hr : (r, t) ∈ state.transitions.valued) :
    Between d k (follow path s (r, t)) ∧ s.Extends (follow path s (r, t)) ∧
      ((step? r).isSome = true → (follow path s (r, t)).isKnown t.target = true) := by
  rw [follow]
  cases hknown : s.isKnown t.target with
  | true => exact ⟨h, fun _ _ h => h, fun _ => hknown⟩
  | false =>
    simp only [Bool.false_eq_true, if_false]
    cases hst : step? r with
    | none => exact ⟨h, fun _ _ h => h, fun h => by cases h⟩
    | some st =>
      have hnext := next?_of_mem_valued hs hr hst
      have htarget := h.target?_append hpath hnext
      rw [← List.reverse_cons] at htarget
      have hlt : t.target < s.paths.size := by
        obtain ⟨u, hu, hut⟩ := Option.map_eq_some_iff.1 hnext
        rw [h.size, ← hut]
        exact hd.target id _ u hu
      have hnone : s.path? t.target = none := by
        rwa [Search.isKnown_eq, Option.isSome_eq_false_iff, Option.isNone_iff_eq_none] at hknown
      -- A shorter input would make the target known already.
      have hfar : ∀ steps, target? d steps = some t.target → k < steps.length := by
        intro steps hsteps
        by_contra hle
        have := h.known steps _ (Nat.le_of_not_lt hle) hsteps
        rw [hknown] at this
        cases this
      obtain ⟨hbetween, hext⟩ := h.insert hlt hnone htarget (congrArg (· + 1) hlength) hfar
      refine ⟨hbetween, hext, fun _ => ?_⟩
      rw [Search.isKnown_eq, Search.path?_setIfInBounds hlt, if_pos rfl]
      rfl

theorem foldl_follow_spec {id : ℕ} {state : State} (hs : d.states[id]? = some state)
    {path : List Step} (hlength : path.length = k) {ts : List (Span × Transition)} {s : Search}
    (h : Between d k s) (hpath : s.path? id = some path)
    (hts : ∀ x ∈ ts, x ∈ state.transitions.valued) :
    Between d k (ts.foldl (follow path) s) ∧ s.Extends (ts.foldl (follow path) s) ∧
      ∀ x ∈ ts, (step? x.1).isSome = true →
        (ts.foldl (follow path) s).isKnown x.2.target = true := by
  induction ts generalizing s with
  | nil => exact ⟨h, fun _ _ h => h, by simp⟩
  | cons x ts ih =>
    obtain ⟨h1, h2, h3⟩ := follow_spec hd h hs hpath hlength (hts x List.mem_cons_self)
    obtain ⟨h4, h5, h6⟩ := ih h1 (h2 id path hpath) fun y hy => hts y (List.mem_cons_of_mem _ hy)
    refine ⟨h4, fun q p hp => h5 q p (h2 q p hp), fun y hy hst => ?_⟩
    rcases List.mem_cons.1 hy with rfl | hy
    · exact h5.isKnown (h3 hst)
    · exact h6 y hy hst

theorem visit_spec {s : Search} (h : Between d k s) {id : ℕ} {path : List Step}
    (hpath : s.path? id = some path) (hlength : path.length = k) :
    Between d k (visit d s id) ∧ s.Extends (visit d s id) ∧
      ∀ (st : Step) (q : ℕ), d.next? id st.point = some q → (visit d s id).isKnown q = true := by
  have hpath' : s.paths.getD id none = some path := hpath
  rw [visit, hpath']
  cases hs : d.states[id]? with
  | none =>
    refine ⟨h, fun _ _ h => h, fun st q hq => ?_⟩
    rw [next?, transition?, hs] at hq
    cases hq
  | some state =>
    obtain ⟨h1, h2, h3⟩ := foldl_follow_spec hd hs hlength h hpath fun _ h => h
    refine ⟨h1, h2, fun st q hq => ?_⟩
    obtain ⟨r, t, hr, rfl, hst⟩ := exists_mem_valued hs hq
    exact h3 (r, t) hr hst

theorem foldl_visit_spec {ids : List ℕ} {s : Search} (h : Between d k s)
    (hids : ∀ id ∈ ids, ∃ path, s.path? id = some path ∧ path.length = k) :
    Between d k (ids.foldl (visit d) s) ∧ s.Extends (ids.foldl (visit d) s) ∧
      ∀ id ∈ ids, ∀ (st : Step) (q : ℕ), d.next? id st.point = some q →
        (ids.foldl (visit d) s).isKnown q = true := by
  induction ids generalizing s with
  | nil => exact ⟨h, fun _ _ h => h, by simp⟩
  | cons id ids ih =>
    obtain ⟨path, hpath, hlength⟩ := hids id List.mem_cons_self
    obtain ⟨h1, h2, h3⟩ := visit_spec hd h hpath hlength
    have hrest : ∀ i ∈ ids, ∃ path, (visit d s id).path? i = some path ∧ path.length = k := by
      intro i hi
      obtain ⟨p, hp, hl⟩ := hids i (List.mem_cons_of_mem _ hi)
      exact ⟨p, h2 i p hp, hl⟩
    obtain ⟨h4, h5, h6⟩ := ih h1 hrest
    refine ⟨h4, fun q p hp => h5 q p (h2 q p hp), fun i hi st q hq => ?_⟩
    rcases List.mem_cons.1 hi with rfl | hi
    · exact h5.isKnown (h3 st q hq)
    · exact h6 i hi st q hq

end

/-- A search between two levels: the states `k` steps away were found last. -/
structure Level (d : Dfa) (k : ℕ) (s : Search) : Prop extends Sound d s where
  known : Known d k s
  found : ∀ q, q ∈ s.found ↔ ∃ path, s.path? q = some path ∧ path.length = k
  near : ∀ q path, s.path? q = some path → path.length ≤ k

section

variable {d : Dfa} (hd : d.InRange) {k : ℕ}

theorem exists_previous {steps : List Step} {q : ℕ} (h : target? d steps = some q)
    (hlength : steps.length = k + 1) :
    ∃ before st p, steps = before ++ [st] ∧ target? d before = some p ∧
      d.next? p st.point = some q := by
  obtain ⟨before, st, rfl⟩ : ∃ before st, steps = before ++ [st] :=
    ⟨_, _, (List.dropLast_append_getLast (List.ne_nil_of_length_eq_add_one hlength)).symm⟩
  rw [target?_append] at h
  obtain ⟨p, hp, hq⟩ := Option.bind_eq_some_iff.1 h
  exact ⟨before, st, p, rfl, hp, hq⟩

theorem Level.forget {s : Search} (h : Level d k s) : Between d k { s with found := [] } where
  size := h.size
  reaches := h.reaches
  shortest := h.shortest
  known := h.known
  found q := by
    constructor
    · intro hq
      cases hq
    · rintro ⟨path, hp, hl⟩
      have := h.near q path hp
      omega
  near q path hp := (h.near q path hp).trans (Nat.le_succ k)

/-- Once no state was found last, every state that some input leads to is known. -/
theorem Level.isKnown_of_target? {s : Search} (h : Level d k s) (hfound : s.found = [])
    {steps : List Step} {q : ℕ} (hq : target? d steps = some q) : s.isKnown q = true := by
  induction hn : steps.length generalizing steps q with
  | zero => exact h.known steps q (by omega) hq
  | succ n ih =>
    obtain ⟨before, st, p, rfl, hp, hnext⟩ := exists_previous hq hn
    have hbefore : before.length = n := by simpa using hn
    obtain ⟨path, hpath⟩ := Option.isSome_iff_exists.1 (ih hp hbefore)
    have hnear := h.near p path hpath
    have hne : path.length ≠ k := by
      intro hk
      have hmem := (h.found p).2 ⟨path, hpath, hk⟩
      rw [hfound] at hmem
      cases hmem
    refine h.known (path.reverse ++ [st]) q ?_ (h.target?_append hpath hnext)
    simp only [List.length_append, List.length_reverse, List.length_singleton]
    omega

include hd

theorem Level.next {s : Search} (h : Level d k s) :
    Level d (k + 1) (s.found.reverse.foldl (visit d) { s with found := [] }) ∧
      s.Extends (s.found.reverse.foldl (visit d) { s with found := [] }) := by
  obtain ⟨h1, h2, h3⟩ := foldl_visit_spec hd h.forget fun id hid =>
    (h.found id).1 (List.mem_reverse.1 hid)
  generalize s.found.reverse.foldl (visit d) { s with found := [] } = t at h1 h2 h3
  have hext : s.Extends t := h2
  refine ⟨⟨h1.toSound, ?_, h1.found, h1.near⟩, hext⟩
  intro steps q hle hq
  rcases Nat.lt_or_eq_of_le hle with hlt | hlength
  · exact h1.known steps q (Nat.le_of_lt_succ hlt) hq
  · obtain ⟨before, st, p, rfl, hp, hnext⟩ := exists_previous hq hlength
    have hbefore : before.length = k := by simpa using hlength
    obtain ⟨path, hpath⟩ := Option.isSome_iff_exists.1 (h.known before p hbefore.le hp)
    by_cases hk : path.length = k
    · exact h3 p (List.mem_reverse.2 ((h.found p).2 ⟨path, hpath, hk⟩)) st q hnext
    · have := h.near p path hpath
      refine h1.known (path.reverse ++ [st]) q ?_ (h.target?_append hpath hnext)
      simp only [List.length_append, List.length_reverse, List.length_singleton]
      omega

end

/-! ### The whole search -/

structure Done (d : Dfa) (s : Search) : Prop extends Sound d s where
  complete : ∀ steps q, target? d steps = some q → s.isKnown q = true

def knownStates (d : Dfa) (s : Search) : Finset ℕ :=
  (Finset.range d.size).filter fun q => s.isKnown q = true

theorem card_knownStates_le (d : Dfa) (s : Search) : (knownStates d s).card ≤ d.size := by
  have h := Finset.card_filter_le (Finset.range d.size) fun q => s.isKnown q = true
  rwa [Finset.card_range] at h

theorem Search.isKnown_of_path? {s : Search} {q : ℕ} {path : List Step}
    (h : s.path? q = some path) : s.isKnown q = true := by
  rw [isKnown_eq, h]
  rfl

theorem Sound.mem_knownStates {d : Dfa} {s : Search} (h : Sound d s) {q : ℕ} :
    q ∈ knownStates d s ↔ s.isKnown q = true := by
  rw [knownStates, Finset.mem_filter, Finset.mem_range, and_iff_right_iff_imp]
  intro hq
  by_contra hlt
  rw [Search.isKnown_eq, Search.path?, Array.getD_eq_getD_getElem?,
    Array.getElem?_eq_none (h.size.trans_le (Nat.le_of_not_lt hlt))] at hq
  cases hq

theorem card_lt_of_level {d : Dfa} {k : ℕ} {s t : Search} (h : Level d k s)
    (ht : Level d (k + 1) t) (hext : s.Extends t) (hfound : t.found ≠ []) :
    (knownStates d s).card < (knownStates d t).card := by
  refine Finset.card_lt_card (Finset.ssubset_iff_subset_ne.2 ⟨fun q hq => ?_, fun heq => ?_⟩)
  · exact ht.mem_knownStates.2 (hext.isKnown (h.mem_knownStates.1 hq))
  · obtain ⟨q, hq⟩ := List.exists_mem_of_ne_nil _ hfound
    obtain ⟨path, hpath, hlength⟩ := (ht.found q).1 hq
    have hmem := ht.mem_knownStates.2 (Search.isKnown_of_path? hpath)
    rw [← heq] at hmem
    obtain ⟨old, hold⟩ := Option.isSome_iff_exists.1 (h.mem_knownStates.1 hmem)
    have hsame := (hext q old hold).symm.trans hpath
    cases hsame
    have := h.near q path hold
    omega

section

variable {d : Dfa} (hd : d.InRange)

include hd

/-- As each level but the last finds a state, the search comes to an end by itself. -/
theorem searchLevels_spec {levels k : ℕ} {s : Search} (h : Level d k s)
    (hlevels : s.found = [] ∨ d.size < levels + (knownStates d s).card) :
    ∃ k', Level d k' (searchLevels d levels s) ∧ (searchLevels d levels s).found = [] := by
  induction levels generalizing k s with
  | zero =>
    refine ⟨k, h, hlevels.resolve_right fun hlt => ?_⟩
    have := card_knownStates_le d s
    omega
  | succ levels ih =>
    rw [searchLevels]
    split
    case h_1 hfound => exact ⟨k, h, hfound⟩
    case h_2 hfound =>
      obtain ⟨hnext, hext⟩ := h.next hd
      refine ih hnext ?_
      by_cases hnone : (s.found.reverse.foldl (visit d) { s with found := [] }).found = []
      · exact .inl hnone
      · have hlt := card_lt_of_level h hnext hext hnone
        have hle := hlevels.resolve_left hfound
        exact .inr (by omega)

theorem path?_initial (q : ℕ) :
    (Search.mk ((Array.replicate d.size none).setIfInBounds start (some [])) [start]).path? q =
      if q = start then some [] else none := by
  have hstart : start < (Search.mk (Array.replicate d.size none) []).paths.size := by
    rw [Array.size_replicate]
    exact hd.start
  rw [Search.path?_setIfInBounds hstart, Search.path?, Array.getD_eq_getD_getElem?,
    Array.getElem?_replicate]
  split
  case isTrue => rfl
  case isFalse => split <;> rfl

theorem level_initial : Level d 0
    ⟨(Array.replicate d.size none).setIfInBounds start (some []), [start]⟩ := by
  have hpath := path?_initial hd
  constructor
  · constructor
    · rw [Array.size_setIfInBounds, Array.size_replicate]
    · intro q path h
      rw [hpath] at h
      split at h
      case isTrue hq =>
        cases h
        rw [hq]
        rfl
      case isFalse => cases h
    · intro q path h steps _
      rw [hpath] at h
      split at h
      case isTrue =>
        cases h
        exact Nat.zero_le _
      case isFalse => cases h
  · intro steps q hle hq
    rw [List.length_eq_zero_iff.1 (Nat.le_zero.1 hle)] at hq
    cases hq
    exact Search.isKnown_of_path? ((hpath start).trans (if_pos rfl))
  · intro q
    rw [hpath, List.mem_singleton]
    by_cases hq : q = start <;> simp [hq]
  · intro q path h
    rw [hpath] at h
    split at h
    case isTrue =>
      cases h
      exact le_rfl
    case isFalse => cases h

theorem level_search : ∃ k, Level d k (search d) ∧ (search d).found = [] := by
  have hlevel := level_initial hd
  refine searchLevels_spec hd hlevel (.inr ?_)
  have hstart : start ∈ knownStates d _ :=
    hlevel.mem_knownStates.2 (hlevel.known [] start le_rfl rfl)
  have := Finset.card_pos.2 ⟨start, hstart⟩
  omega

theorem search_spec : Done d (search d) := by
  obtain ⟨k, hlevel, hfound⟩ := level_search hd
  exact ⟨hlevel.toSound, fun _ _ => hlevel.isKnown_of_target? hfound⟩

end

end Ambiguity

/-- The reported ambiguities are the ambiguous states that some input leads to, each with the steps
of a shortest one. -/
theorem mem_ambiguities {d : Dfa} (hd : d.InRange) {x : Ambiguity} (hx : x ∈ d.ambiguities) :
    Ambiguity.target? d x.steps = some x.state ∧
      (∀ steps, Ambiguity.target? d steps = some x.state → x.steps.length ≤ steps.length) ∧
      ∃ s, d.states[x.state]? = some s ∧ s.isAmbiguous = true ∧ x.domains = s.domains := by
  have hdone := Ambiguity.search_spec hd
  obtain ⟨q, -, hq⟩ := List.mem_filterMap.1 hx
  unfold Ambiguity.ofState? at hq
  split at hq
  case h_1 s path hs hpath =>
    split at hq
    case isTrue hambiguous =>
      cases hq
      refine ⟨hdone.reaches q path hpath, fun steps hsteps => ?_, s, hs, hambiguous, rfl⟩
      rw [List.length_reverse]
      exact hdone.shortest q path hpath steps hsteps
    case isFalse => cases hq
  case h_2 => cases hq

theorem exists_mem_ambiguities {d : Dfa} (hd : d.InRange) {steps : List Step} {q : ℕ} {s : State}
    (hq : Ambiguity.target? d steps = some q) (hs : d.states[q]? = some s)
    (hambiguous : s.isAmbiguous = true) : ∃ x ∈ d.ambiguities, x.state = q := by
  have hknown := (Ambiguity.search_spec hd).complete steps q hq
  obtain ⟨path, hpath⟩ := Option.isSome_iff_exists.1 hknown
  have hlt : q < d.size := (Array.getElem?_eq_some_iff.1 hs).1
  refine ⟨⟨q, s.domains, path.reverse⟩, List.mem_filterMap.2 ⟨q, List.mem_range.2 hlt, ?_⟩, rfl⟩
  have hpath' : (Ambiguity.search d).paths.getD q none = some path := hpath
  rw [Ambiguity.ofState?, hs, hpath']
  exact if_pos hambiguous

end Dfa

end PatternAutomata
