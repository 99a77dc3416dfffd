import PatternAutomata.Proofs.Bounds.Subset
import Mathlib.Data.Finset.Card
import Mathlib.Data.Finset.Powerset
import Mathlib.Data.Finset.Range

/-!
Subset construction without a limit on states, and what a limit makes of it. The states found stand
for different sets of states of the other automaton, so the work list runs empty after at most as
many rounds as there are such sets. A limit is looked at only where a state is made, so a run under
a limit is that run, or ends at the first state too many.
-/

set_option autoImplicit false

namespace PatternAutomata

namespace Subset

/-! ### Without a limit -/

def freely (a : Nfa) : Steps Id where
  outgoing keys id := outgoing a (keys.getD id [])
  reached := reached a
  keyOf := keyOf a
  permit _ := ()
  span start stop := ⟨start, stop⟩
  settle maps id m := maps.setIfInBounds id m

def internFreely (a : Nfa) (key : List ℕ) (p : Progress) : ℕ × Progress :=
  ((freely a).intern key p).run

def piecesFreely (a : Nfa) (os : List Outgoing) (ws : List (ℤ × ℤ)) (p : Progress)
    (scratch : SparseSet) : List (Span × Dfa.Transition) × Progress × SparseSet :=
  ((freely a).pieces os ws p scratch).run

def workOut (a : Nfa) (id : ℕ) (p : Progress) (scratch : SparseSet) : Progress × SparseSet :=
  ((freely a).workOut id p scratch).run

inductive Finishes (a : Nfa) : Progress → SparseSet → Progress → Prop
  | done {p : Progress} {scratch : SparseSet} (hp : p.waiting = []) : Finishes a p scratch p
  | round {p q : Progress} {scratch : SparseSet} {id : ℕ} {waiting : List ℕ}
    (hp : p.waiting = id :: waiting)
    (h : Finishes a (workOut a id { p with waiting := waiting } scratch).1
      (workOut a id { p with waiting := waiting } scratch).2 q) : Finishes a p scratch q

end Subset

/-- Without a limit on states, subset construction comes to an end with `d`. -/
def Nfa.DeterminizesTo (a : Nfa) (d : Dfa) : Prop :=
  let scratch := Subset.closure a Nfa.start (.ofCapacity a.size)
  ∃ q, Subset.Finishes a (Subset.internFreely a (Subset.keyOf a scratch) .initial).2 scratch q ∧
    d = q.toDfa a

namespace Subset

/-! ### What a limit makes of it -/

/-- What a limit makes of a result with `size` states. -/
def granted {α : Type} (limit size : ℕ) (x : α) : Except Dfa.BuildError α :=
  if size ≤ limit then .ok x else .error (.tooManyStates limit)

section

variable {limit m n : ℕ} {α β : Type} {x : α} {y : β}

theorem granted_of_le (h : n ≤ limit) (x : α) : granted limit n x = .ok x := if_pos h

/-- Where more states are made, a refusal comes from what was made before or from the rest. -/
theorem granted_bind {f : α → Except Dfa.BuildError β} (hmn : m ≤ n)
    (hf : m ≤ limit → f x = granted limit n y) : granted limit m x >>= f = granted limit n y := by
  by_cases hm : m ≤ limit
  · rw [granted_of_le hm]
    exact hf hm
  · rw [granted, granted, if_neg hm, if_neg fun hn => hm (hmn.trans hn)]
    rfl

end

section

variable {a : Nfa} {limit : ℕ} {p q r : Progress} {key : List ℕ} {os : List Outgoing}
  {ws : List (ℤ × ℤ)} {scratch : SparseSet}

theorem internFreely_cases (a : Nfa) (key : List ℕ) (p : Progress) :
    (∃ id, p.index[key]? = some id ∧ internFreely a key p = (id, p)) ∨
      (p.index[key]? = none ∧ internFreely a key p = (p.keys.size, p.add key)) := by
  rw [internFreely, Steps.intern]
  cases h : p.index[key]? with
  | some id => exact .inl ⟨id, rfl, rfl⟩
  | none => exact .inr ⟨rfl, rfl⟩

theorem piecesFreely_nil {start stop : ℤ}
    (h : (os.filter fun o => o.points.contains start) = []) :
    piecesFreely a os ((start, stop) :: ws) p scratch = piecesFreely a os ws p scratch := by
  rw [piecesFreely, Steps.pieces, h]
  rfl

theorem piecesFreely_cons {start stop : ℤ} {o : Outgoing} {more : List Outgoing}
    (h : (os.filter fun o => o.points.contains start) = o :: more) :
    piecesFreely a os ((start, stop) :: ws) p scratch =
      let scratch := reached a (o :: more) scratch
      let x := internFreely a (keyOf a scratch) p
      let y := piecesFreely a os ws x.2 scratch
      ((⟨start, stop⟩, ⟨x.1, (o :: more).all (·.reluctant)⟩) :: y.1, y.2) := by
  rw [piecesFreely, Steps.pieces, h]
  rfl

theorem workOut_eq (a : Nfa) (id : ℕ) (p : Progress) (scratch : SparseSet) :
    workOut a id p scratch =
      let os := outgoing a (p.keys.getD id [])
      let x := piecesFreely a os (Ascending.windows (cuts os)) p scratch
      ({ x.2.1 with maps := x.2.1.maps.setIfInBounds id (.ofPieces x.1) }, x.2.2) := rfl

structure Grows (p q : Progress) : Prop where
  size : p.keys.size ≤ q.keys.size
  enlists : Enlists p q

theorem Grows.refl (p : Progress) : Grows p p := ⟨le_rfl, rfl⟩

theorem Grows.trans (h : Grows p q) (hq : Grows q r) : Grows p r := by
  refine ⟨h.size.trans hq.size, ?_⟩
  have hpq := h.enlists
  have hqr := hq.enlists
  unfold Enlists at hpq hqr ⊢
  omega

theorem Grows.setMaps (h : Grows p q) (maps : Array (PointMap Dfa.Transition)) :
    Grows p { q with maps := maps } :=
  ⟨h.size, h.enlists⟩

theorem grows_add (key : List ℕ) (p : Progress) : Grows p (p.add key) := by
  refine ⟨?_, enlists_add key p⟩
  simp only [Progress.add, Array.size_push]
  omega

theorem grows_internFreely (a : Nfa) (key : List ℕ) (p : Progress) :
    Grows p (internFreely a key p).2 := by
  rcases internFreely_cases a key p with ⟨id, -, h⟩ | ⟨-, h⟩
  · rw [h]
    exact .refl p
  · rw [h]
    exact grows_add key p

theorem waiting_internFreely_initial (a : Nfa) (key : List ℕ) :
    (internFreely a key .initial).2.waiting.length =
      (internFreely a key .initial).2.keys.size := by
  have h := (grows_internFreely a key .initial).enlists
  simp only [Enlists, Progress.initial, List.size_toArray, List.length_nil] at h
  exact h.symm

theorem grows_piecesFreely (a : Nfa) (os : List Outgoing) (ws : List (ℤ × ℤ)) (p : Progress)
    (scratch : SparseSet) : Grows p (piecesFreely a os ws p scratch).2.1 := by
  induction ws generalizing p scratch with
  | nil => exact .refl p
  | cons w ws ih =>
    obtain ⟨start, stop⟩ := w
    cases h : os.filter fun o => o.points.contains start with
    | nil =>
      rw [piecesFreely_nil h]
      exact ih p scratch
    | cons o more =>
      rw [piecesFreely_cons h]
      exact (grows_internFreely a _ p).trans (ih _ _)

theorem grows_workOut (a : Nfa) (id : ℕ) (p : Progress) (scratch : SparseSet) :
    Grows p (workOut a id p scratch).1 :=
  (grows_piecesFreely a _ _ p scratch).setMaps _

theorem Finishes.size_le (h : Finishes a p scratch q) : p.keys.size ≤ q.keys.size := by
  induction h with
  | done => exact le_rfl
  | @round p q scratch id waiting hp h ih =>
    exact (grows_workOut a id { p with waiting := waiting } scratch).size.trans ih

theorem intern_eq (hp : p.keys.size ≤ limit) :
    intern a limit key p =
      granted limit (internFreely a key p).2.keys.size (internFreely a key p) := by
  rw [intern, Steps.intern]
  rcases internFreely_cases a key p with ⟨id, hid, h⟩ | ⟨hid, h⟩
  · rw [h, hid]
    exact (granted_of_le hp _).symm
  · rw [h, hid]
    simp only [steps, granted, Progress.add, Array.size_push]
    split_ifs with hfull hroom
    · omega
    · rfl
    · rfl
    · omega

theorem pieces_eq (a : Nfa) (os : List Outgoing) (ws : List (ℤ × ℤ)) (scratch : SparseSet)
    (hp : p.keys.size ≤ limit) :
    pieces a limit os ws p scratch =
      granted limit (piecesFreely a os ws p scratch).2.1.keys.size
        (piecesFreely a os ws p scratch) := by
  induction ws generalizing p scratch with
  | nil => exact (granted_of_le hp _).symm
  | cons w ws ih =>
    obtain ⟨start, stop⟩ := w
    rw [pieces_cons]
    cases h : os.filter fun o => o.points.contains start with
    | nil =>
      rw [piecesFreely_nil h]
      exact ih scratch hp
    | cons o more =>
      rw [piecesFreely_cons h]
      dsimp only
      rw [intern_eq hp]
      refine granted_bind (grows_piecesFreely a os ws _ _).size fun hlimit => ?_
      rw [ih _ hlimit]
      exact granted_bind le_rfl fun hlimit => (granted_of_le hlimit _).symm

theorem complete_of_waiting {rounds id : ℕ} {waiting : List ℕ}
    (hwaiting : p.waiting = id :: waiting) (hp : p.keys.size ≤ limit) :
    complete a limit (rounds + 1) p scratch =
      granted limit (workOut a id { p with waiting := waiting } scratch).1.keys.size
          (workOut a id { p with waiting := waiting } scratch) >>=
        fun x => complete a limit rounds x.1 x.2 := by
  obtain ⟨keys, index, maps, _⟩ := p
  obtain rfl := hwaiting
  rw [complete_succ, workOut_eq]
  dsimp only
  rw [pieces_eq (p := ⟨keys, index, maps, waiting⟩) a _ _ scratch hp, granted, granted]
  split_ifs <;> rfl

/-- Rounds that the limit allows are enough for what waits and for what is found meanwhile. -/
theorem complete_eq (h : Finishes a p scratch q) (hp : p.keys.size ≤ limit) {rounds : ℕ}
    (hrounds : limit + p.waiting.length ≤ p.keys.size + rounds) :
    complete a limit rounds p scratch = granted limit q.keys.size q := by
  induction h generalizing rounds with
  | @done p scratch hwaiting =>
    rw [granted_of_le hp]
    obtain ⟨keys, index, maps, waiting⟩ := p
    obtain rfl := hwaiting
    cases rounds <;> rfl
  | @round p q scratch id waiting hwaiting h ih =>
    have henlists := (grows_workOut a id { p with waiting := waiting } scratch).enlists
    rw [hwaiting, List.length_cons] at hrounds
    cases rounds with
    | zero =>
      -- There would be more states than the limit allows.
      omega
    | succ rounds =>
      rw [complete_of_waiting hwaiting hp]
      refine granted_bind h.size_le fun hlimit => ih hlimit ?_
      unfold Enlists at henlists
      dsimp only at henlists
      omega

end

/-! ### Termination -/

structure IsStateSet (a : Nfa) (key : List ℕ) : Prop where
  ascending : key.Pairwise (· < ·)
  lt : ∀ j ∈ key, j < a.size

/-- The states found stand for different sets of states, each of which is known by its number. -/
structure Distinct (a : Nfa) (p : Progress) : Prop where
  keys : ∀ key ∈ p.keys.toList, IsStateSet a key
  nodup : p.keys.toList.Nodup
  index : ∀ key ∈ p.keys.toList, p.index[key]? ≠ none

section

variable {a : Nfa} {p q : Progress} {key : List ℕ} {os : List Outgoing} {ws : List (ℤ × ℤ)}
  {scratch : SparseSet}

theorem isStateSet_keyOf (hs : scratch.WellFormed) (hc : scratch.capacity = a.size) :
    IsStateSet a (keyOf a scratch) :=
  ⟨Ascending.pairwise_ofList _, fun _ => lt_of_mem_keyOf hs hc⟩

theorem distinct_initial (a : Nfa) : Distinct a .initial where
  keys _ h := (List.not_mem_nil h).elim
  nodup := .nil
  index _ h := (List.not_mem_nil h).elim

theorem Distinct.size_le (h : Distinct a p) : p.keys.size ≤ 2 ^ a.size := by
  have hmaps : ∀ key ∈ p.keys.toList.toFinset,
      List.toFinset key ∈ (Finset.range a.size).powerset := by
    intro key hkey
    rw [Finset.mem_powerset]
    intro j hj
    exact Finset.mem_range.2 ((h.keys key (List.mem_toFinset.1 hkey)).lt j (List.mem_toFinset.1 hj))
  have hinj : Set.InjOn List.toFinset (p.keys.toList.toFinset : Set (List ℕ)) := by
    intro key hkey key' hkey' heq
    refine Ascending.eq_of_mem_iff (h.keys key (List.mem_toFinset.1 hkey)).ascending
      (h.keys key' (List.mem_toFinset.1 hkey')).ascending fun j => ?_
    rw [← List.mem_toFinset, heq, List.mem_toFinset]
  calc p.keys.size = p.keys.toList.toFinset.card := (List.toFinset_card_of_nodup h.nodup).symm
    _ ≤ (Finset.range a.size).powerset.card := Finset.card_le_card_of_injOn _ hmaps hinj
    _ = 2 ^ a.size := by rw [Finset.card_powerset, Finset.card_range]

theorem Distinct.add (h : Distinct a p) (hkey : IsStateSet a key) (hnew : p.index[key]? = none) :
    Distinct a (p.add key) := by
  have hfresh : key ∉ p.keys.toList := fun hmem => h.index key hmem hnew
  obtain ⟨keys, index, maps, waiting⟩ := p
  constructor
  · intro key' hmem
    rw [Progress.add, Array.toList_push, List.mem_append, List.mem_singleton] at hmem
    rcases hmem with hmem | rfl
    · exact h.keys key' hmem
    · exact hkey
  · rw [Progress.add, Array.toList_push, List.nodup_append_comm, List.singleton_append,
      List.nodup_cons]
    exact ⟨hfresh, h.nodup⟩
  · intro key' hmem
    rw [Progress.add, Array.toList_push, List.mem_append, List.mem_singleton] at hmem
    simp only [Progress.add, Std.TreeMap.getElem?_insert, Std.compare_eq_iff_eq]
    split
    · exact Option.some_ne_none _
    · rename_i hne
      exact h.index key' (hmem.resolve_right fun he => hne he.symm)

theorem Distinct.internFreely (h : Distinct a p) (hkey : IsStateSet a key) :
    Distinct a (internFreely a key p).2 := by
  rcases internFreely_cases a key p with ⟨id, -, heq⟩ | ⟨hnew, heq⟩
  · rw [heq]
    exact h
  · rw [heq]
    exact h.add hkey hnew

theorem Distinct.piecesFreely (h : Distinct a p) (hs : scratch.WellFormed)
    (hc : scratch.capacity = a.size) :
    Distinct a (piecesFreely a os ws p scratch).2.1 ∧
      (piecesFreely a os ws p scratch).2.2.WellFormed ∧
      (piecesFreely a os ws p scratch).2.2.capacity = a.size := by
  induction ws generalizing p scratch with
  | nil => exact ⟨h, hs, hc⟩
  | cons w ws ih =>
    obtain ⟨start, stop⟩ := w
    cases hoffered : os.filter fun o => o.points.contains start with
    | nil =>
      rw [piecesFreely_nil hoffered]
      exact ih h hs hc
    | cons o more =>
      obtain ⟨hr, hrc⟩ := reached_wellFormed (a := a) (o :: more) hs
      rw [piecesFreely_cons hoffered]
      exact ih (h.internFreely (isStateSet_keyOf hr (hrc.trans hc))) hr (hrc.trans hc)

theorem Distinct.workOut (h : Distinct a p) (id : ℕ) (hs : scratch.WellFormed)
    (hc : scratch.capacity = a.size) :
    Distinct a (workOut a id p scratch).1 ∧ (workOut a id p scratch).2.WellFormed ∧
      (workOut a id p scratch).2.capacity = a.size := by
  rw [workOut_eq]
  dsimp only
  obtain ⟨hworked, hscratch⟩ := h.piecesFreely hs hc
  exact ⟨⟨hworked.keys, hworked.nodup, hworked.index⟩, hscratch⟩

/-- The work list runs empty: a round takes a state from it, and only as many can be added as there
are sets of states left. -/
theorem exists_finishes (rounds : ℕ) (h : Distinct a p) (hs : scratch.WellFormed)
    (hc : scratch.capacity = a.size)
    (hrounds : 2 ^ a.size + p.waiting.length ≤ p.keys.size + rounds) :
    ∃ q, Finishes a p scratch q ∧ Distinct a q := by
  induction rounds generalizing p scratch with
  | zero =>
    -- All sets of states are found, so none can wait.
    have hempty : p.waiting.length = 0 := by
      have := h.size_le
      omega
    exact ⟨p, .done (List.eq_nil_of_length_eq_zero hempty), h⟩
  | succ rounds ih =>
    cases hwaiting : p.waiting with
    | nil => exact ⟨p, .done hwaiting, h⟩
    | cons id waiting =>
      have hnext : Distinct a { p with waiting := waiting } := ⟨h.keys, h.nodup, h.index⟩
      obtain ⟨hworked, hs', hc'⟩ := hnext.workOut id hs hc
      have henlists := (grows_workOut a id { p with waiting := waiting } scratch).enlists
      rw [hwaiting, List.length_cons] at hrounds
      unfold Enlists at henlists
      dsimp only at henlists
      obtain ⟨q, hq, hdistinct⟩ := ih hworked hs' hc' (by omega)
      exact ⟨q, .round hwaiting hq, hdistinct⟩

theorem Finishes.unique (h : Finishes a p scratch q) {q' : Progress}
    (h' : Finishes a p scratch q') : q = q' := by
  induction h with
  | done hp =>
    cases h' with
    | done => rfl
    | round hp' => cases hp.symm.trans hp'
  | round hp _ ih =>
    cases h' with
    | done hp' => cases hp'.symm.trans hp
    | round hp' h' =>
      cases hp'.symm.trans hp
      exact ih h'

end

end Subset

namespace Nfa

variable {a : Nfa} {d d' : Dfa}

theorem DeterminizesTo.unique (h : a.DeterminizesTo d) (h' : a.DeterminizesTo d') : d = d' := by
  obtain ⟨q, hq, rfl⟩ := h
  obtain ⟨q', hq', rfl⟩ := h'
  rw [hq.unique hq']

/-- Whatever the automaton is, the construction comes to an end, with no more states than there are
sets of states. -/
theorem exists_determinizesTo (a : Nfa) : ∃ d, a.DeterminizesTo d ∧ d.size ≤ 2 ^ a.size := by
  obtain ⟨hs, hc⟩ := Subset.closure_start_wellFormed a
  have hstart := (Subset.distinct_initial a).internFreely (Subset.isStateSet_keyOf hs hc)
  have hwaiting := Subset.waiting_internFreely_initial a
    (Subset.keyOf a (Subset.closure a start (.ofCapacity a.size)))
  obtain ⟨q, hq, hfound⟩ :=
    Subset.exists_finishes (2 ^ a.size) hstart hs hc (by omega)
  exact ⟨q.toDfa a, ⟨q, hq, rfl⟩, (q.size_toDfa a).trans_le hfound.size_le⟩

/-- A limit leaves the result as it is, or refuses it for having too many states. -/
theorem DeterminizesTo.determinize_eq (h : a.DeterminizesTo d) (limit : Option ℕ) :
    a.determinize limit =
      Subset.granted (min (limit.getD Ident.capacity) Ident.capacity) d.size d := by
  obtain ⟨q, hq, rfl⟩ := h
  rw [determinize, q.size_toDfa]
  dsimp only
  rw [Subset.intern_eq (Nat.zero_le _)]
  refine Subset.granted_bind hq.size_le fun hlimit => ?_
  have hwaiting := Subset.waiting_internFreely_initial a
    (Subset.keyOf a (Subset.closure a start (.ofCapacity a.size)))
  rw [Subset.complete_eq hq hlimit (by omega)]
  exact Subset.granted_bind le_rfl fun hq => (Subset.granted_of_le hq _).symm

theorem size_determinize_le {limit : Option ℕ} (h : a.determinize limit = .ok d) :
    d.size ≤ min (limit.getD Ident.capacity) Ident.capacity := by
  obtain ⟨d', hd', -⟩ := exists_determinizesTo a
  rw [hd'.determinize_eq, Subset.granted] at h
  split at h
  · cases h
    assumption
  · cases h

/-- The limit on states is exact. Without one, subset construction comes to an end and has one
result, `d`. Under a limit the outcome is `d` itself if that has no more states than the limit says,
and otherwise a refusal that names the limit. -/
theorem determinize_limit (a : Nfa) : ∃ d, (∀ d', a.DeterminizesTo d' ↔ d' = d) ∧
    d.size ≤ 2 ^ a.size ∧ (d.size ≤ Ident.capacity → a.determinize none = .ok d ∧
      ∀ limit, a.determinize (some limit) =
        if d.size ≤ limit then .ok d else .error (.tooManyStates limit)) := by
  obtain ⟨d, hd, hsize⟩ := exists_determinizesTo a
  refine ⟨d, fun d' => ⟨fun h => h.unique hd, fun h => h ▸ hd⟩, hsize, fun hcapacity => ⟨?_, ?_⟩⟩
  · rw [hd.determinize_eq]
    exact Subset.granted_of_le (by simpa using hcapacity) d
  · intro limit
    rw [hd.determinize_eq, Option.getD_some, Subset.granted]
    by_cases hlimit : d.size ≤ limit
    · rw [if_pos (le_min hlimit hcapacity), if_pos hlimit]
    · rw [min_eq_left (by omega), if_neg hlimit]

/-- A letter takes two states, one before and one after it. -/
theorem determinize_limit_letter : ∃ d, (ofNodes [.text ['a']]).determinize none = .ok d ∧
    d.size = 2 ∧ (ofNodes [.text ['a']]).determinize (some 2) = .ok d ∧
    (ofNodes [.text ['a']]).determinize (some 1) = .error (.tooManyStates 1) := by
  obtain ⟨d, -, hsize, hlimit⟩ := determinize_limit (ofNodes [.text ['a']])
  have hpower : 2 ^ (ofNodes [.text ['a']]).size = 16 := rfl
  rw [hpower] at hsize
  obtain ⟨hnone, hsome⟩ := hlimit (hsize.trans (by decide))
  have hcount : ((ofNodes [.text ['a']]).determinize (some 16)).map Dfa.size = .ok 2 := rfl
  rw [hsome, if_pos hsize] at hcount
  obtain hcount : d.size = 2 := Except.ok.inj hcount
  refine ⟨d, hnone, hcount, ?_, ?_⟩
  · rw [hsome, if_pos hcount.le]
  · rw [hsome, if_neg (by omega)]

end Nfa

end PatternAutomata
