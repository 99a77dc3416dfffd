import PatternAutomata.Program.Generate
import PatternAutomata.Proofs.Decision
import PatternAutomata.Proofs.PointSet
import PatternAutomata.Proofs.Renumber

/-!
What a generated program does, in terms of the automaton before it was renumbered: its actions are
the images of the transitions, updates keep the domain that of the state, and only loops are
skipped.
-/

set_option autoImplicit false

namespace PatternAutomata.Dfa

def reported (d : Dfa) (q : ℕ) : Option ℕ := d.states[q]?.bind State.domain?

def update (d : Dfa) (q r : ℕ) : DomainUpdate :=
  match d.reported r with
  | some pattern => if r = q ∧ q ≠ start then .keep else .set pattern
  | none => if (d.reported q).isSome then .clear else .keep

def image (d : Dfa) (q : ℕ) (t : Transition) : Action :=
  .goto (d.rank t.target) (d.update q t.target) t.reluctant

/-- Whether `domain` is what a matcher may report in `q`: it may report nothing at the start. -/
def Reports (d : Dfa) (q : ℕ) (domain : Option ℕ) : Prop :=
  domain = d.reported q ∨ q = start ∧ domain = none

theorem Reports.update {d : Dfa} {q r : ℕ} {domain : Option ℕ} (h : d.Reports q domain) :
    (d.update q r).apply domain = d.reported r := by
  unfold Dfa.update
  cases hr : d.reported r with
  | some pattern =>
    by_cases hq : r = q ∧ q ≠ start
    · obtain ⟨rfl, h0⟩ := hq
      rcases h with rfl | ⟨h, -⟩
      · simp only [ne_eq, h0, not_false_eq_true, and_self, if_true, DomainUpdate.apply, hr]
      · exact absurd h h0
    · simp only [hq, if_false, DomainUpdate.apply]
  | none =>
    cases hq : (d.reported q).isSome with
    | true => rfl
    | false =>
      rw [Option.isSome_eq_false_iff, Option.isNone_iff_eq_none] at hq
      rcases h with rfl | ⟨-, rfl⟩
      · exact hq
      · rfl

/-- A loop keeps what is reported, except at the start. -/
theorem Reports.update_self {d : Dfa} {q : ℕ} {domain : Option ℕ} (h : d.Reports q domain)
    (h0 : q ≠ start) : (d.update q q).apply domain = domain := by
  rw [h.update]
  exact (h.resolve_right fun h => h0 h.1).symm

theorem isTerminal_iff {s : State} : s.isTerminal = s.domain?.isSome := by
  unfold State.isTerminal State.domain?
  cases s.domains <;> rfl

theorem act_eq_action {d : Dfa} {accelerate : Bool} {id : ℕ} {s : State}
    (hs : d.reorder.states[id]? = some s) {x : ℤ} (hx : Point.InDomain x) :
    (Program.ofDfa d accelerate).act id x =
      ((s.transitions.get? x).map (d.reorder.action id s)).getD .fail := by
  have hcode : (Program.ofDfa d accelerate).states[id]? =
      some (d.reorder.stateCode accelerate id s) := by
    simp only [Program.ofDfa, Array.getElem?_mapIdx, hs, Option.map_some]
  rw [Program.act, hcode]
  simp only [stateCode]
  rw [Decision.lookup_ofMap _ hx, PointMap.get?_filterMap]
  cases s.transitions.get? x <;> rfl

section

variable {d : Dfa} (hd : d.InRange) (accelerate : Bool) {q : ℕ} {s : State}
  (hs : d.states[q]? = some s)

include hs

theorem getElem?_ofDfa : (Program.ofDfa d accelerate).states[d.rank q]? =
    some (d.reorder.stateCode accelerate (d.rank q) (s.renumber d.rank)) := by
  simp only [Program.ofDfa, Array.getElem?_mapIdx, getElem?_reorder hs, Option.map_some]

theorem reported_eq : d.reported q = s.domain? := by
  rw [reported, hs, Option.bind_some]

theorem transition?_eq (p : ℤ) : d.transition? q p = s.transitions.get? p := by
  rw [transition?, hs, Option.bind_some]

theorem isTerminal_ofDfa :
    (Program.ofDfa d accelerate).isTerminal (d.rank q) = (d.reported q).isSome := by
  rw [Program.isTerminal, getElem?_ofDfa accelerate hs, reported_eq hs]
  rfl

include hd

theorem domainUpdate_reorder {t : Transition} (ht : t.target < d.size) :
    d.reorder.domainUpdate (d.rank q) (s.renumber d.rank) { t with target := d.rank t.target } =
      d.update q t.target := by
  have hq : q < d.size := (Array.getElem?_eq_some_iff.1 hs).1
  have htarget := Array.getElem?_eq_getElem ht
  have hreported : d.reorder.states[d.rank t.target]?.bind State.domain? = d.reported t.target := by
    rw [getElem?_reorder htarget, reported, htarget]
    rfl
  have hterminal : (s.renumber d.rank).isTerminal = (d.reported q).isSome := by
    rw [isTerminal_iff, reported_eq hs]
    rfl
  have hstart : d.rank q = start ↔ q = start := by
    have h := rank_inj hq hd.start
    rwa [rank_start hd.start] at h
  rw [domainUpdate, update, hreported]
  cases d.reported t.target with
  | none => simp only [hterminal]
  | some pattern => simp only [rank_inj ht hq, ne_eq, hstart]

theorem act_ofDfa {p : ℤ} (hp : Point.InDomain p) :
    (Program.ofDfa d accelerate).act (d.rank q) p =
      ((d.transition? q p).map (d.image q)).getD .fail := by
  rw [act_eq_action (getElem?_reorder hs) hp, get?_renumber, transition?_eq hs]
  cases ht : s.transitions.get? p with
  | none => rfl
  | some t =>
    have hlt := hd.target q p t ((transition?_eq hs p).trans ht)
    simp only [Option.map_some, Option.getD_some, action, image,
      domainUpdate_reorder hd hs hlt]

end

theorem utf8EncodeChar_of_ascii {c : Char} (h : c.toNat ≤ 0x7F) :
    String.utf8EncodeChar c = [UInt8.ofNat c.toNat] := by
  have hc : c.utf8Size = 1 := by
    rw [Char.utf8Size_eq_one_iff, UInt32.le_iff_toNat_le]
    exact h
  rw [String.utf8EncodeChar_eq_singleton hc]
  rfl

theorem mapM_eq_some_iff {α β : Type} {f : α → Option β} {xs : List α} {ys : List β} :
    xs.mapM f = some ys ↔ xs.map f = ys.map some := by
  induction xs generalizing ys with
  | nil =>
    cases ys with
    | nil => exact iff_of_true rfl rfl
    | cons y ys => exact iff_of_false nofun nofun
  | cons x xs ih =>
    rw [List.mapM_cons, List.map_cons]
    constructor
    · intro h
      obtain ⟨y, hy, h⟩ := Option.bind_eq_some_iff.1 h
      obtain ⟨zs, hzs, h⟩ := Option.bind_eq_some_iff.1 h
      cases h
      rw [List.map_cons, hy, ih.1 hzs]
    · intro h
      cases ys with
      | nil => cases h
      | cons y ys =>
        obtain ⟨hy, hys⟩ := List.cons.inj h
        rw [hy, ih.2 hys]
        rfl

theorem mem_utf8EncodeChar_of_asciiOf? {r : Span} {c : Char} {b : UInt8}
    (hc : r.contains (Point.ofChar c) = true) (h : asciiOf? r = some b) :
    b ∈ String.utf8EncodeChar c := by
  have hbounds := Span.contains_iff.1 hc
  have hpos := Point.ofChar_nonneg c
  unfold asciiOf? at h
  simp only at h
  split at h
  case isFalse => cases h
  case isTrue hlen =>
    cases h
    have hcode : max r.start 0 = Point.ofChar c := by omega
    have hnat : (Point.ofChar c).toNat = c.toNat := rfl
    rw [hcode] at hlen ⊢
    rw [hnat, utf8EncodeChar_of_ascii (by omega)]
    exact List.mem_singleton_self _

theorem isLoop_iff {id : ℕ} {r : PointMap.Run Transition} :
    isLoop id r = true ↔ r.value = some ⟨id, false⟩ := by
  rw [isLoop]
  cases r.value with
  | none => simp
  | some t =>
    cases t
    simp

/-- The runs that hold characters, or surrogates, on which the state does not loop. -/
def leaving (id : ℕ) (s : State) : List (PointMap.Run Transition) :=
  s.transitions.runs.filter fun r => !isLoop id r && 0 < r.span.stop

theorem mem_leaving {id : ℕ} {s : State} {r : PointMap.Run Transition} : r ∈ leaving id s ↔
    r ∈ s.transitions.runs ∧ r.value ≠ some ⟨id, false⟩ ∧ 0 < r.span.stop := by
  rw [leaving, List.mem_filter, Bool.and_eq_true, Bool.not_eq_true', decide_eq_true_eq,
    ← Bool.not_eq_true, isLoop_iff]

/-- The exits, if there are any, are the bytes of the runs that the state is left on. -/
theorem exits_spec {id : ℕ} {s : State} (h : exits id s ≠ []) :
    id ≠ start ∧ (exits id s).length ≤ StateCode.maxExits ∧
      (leaving id s).map (fun r => asciiOf? r.span) = (exits id s).map some := by
  rw [exits, ← leaving] at h ⊢
  cases hbytes : (leaving id s).mapM fun r => asciiOf? r.span with
  | none =>
    rw [hbytes] at h
    exact absurd rfl h
  | some bs =>
    simp only [hbytes] at h ⊢
    split at h
    case isFalse => exact absurd rfl h
    case isTrue hfew =>
      rw [if_pos hfew]
      exact ⟨hfew.1, hfew.2, mapM_eq_some_iff.1 hbytes⟩

theorem isLoop_of_skips {id : ℕ} {s : State} {c : Char} (hne : exits id s ≠ [])
    (hc : ∀ b ∈ String.utf8EncodeChar c, b ∉ exits id s) :
    id ≠ start ∧ s.transitions.get? (Point.ofChar c) = some ⟨id, false⟩ := by
  obtain ⟨h0, -, hbytes⟩ := exits_spec hne
  obtain ⟨r, hr, hcr⟩ := s.transitions.exists_mem_runs (Point.inDomain_ofChar c)
  refine ⟨h0, (s.transitions.get?_of_mem_runs hr hcr).trans ?_⟩
  -- If the run were left on, it would hold one ASCII character, and that would be an exit.
  by_contra hloop
  have hpos : 0 < r.span.stop := by
    have hbounds := Span.contains_iff.1 hcr
    have hnonneg := Point.ofChar_nonneg c
    omega
  have hleaving : r ∈ leaving id s := mem_leaving.2 ⟨hr, hloop, hpos⟩
  obtain ⟨b, hb, hascii⟩ := List.mem_map.1 (hbytes ▸ List.mem_map_of_mem hleaving)
  exact hc b (mem_utf8EncodeChar_of_asciiOf? hcr hascii.symm) hb

theorem loops_of_skips {d : Dfa} (hd : d.InRange) {accelerate : Bool} {q : ℕ} {s : State}
    (hs : d.states[q]? = some s) {c : Char}
    (h : (Program.ofDfa d accelerate).skips (d.rank q) c = true) :
    q ≠ start ∧ ∃ t, d.transition? q (Point.ofChar c) = some t ∧ t.target = q ∧
      t.reluctant = false := by
  have hq : q < d.size := (Array.getElem?_eq_some_iff.1 hs).1
  rw [Program.skips, getElem?_ofDfa accelerate hs, Option.any_some, StateCode.skips, stateCode,
    Bool.and_eq_true, Bool.not_eq_true', List.isEmpty_eq_false_iff, List.all_eq_true] at h
  obtain ⟨hne, hall⟩ := h
  cases accelerate with
  | false => exact absurd rfl hne
  | true =>
    simp only [if_true] at hne hall
    have hexit : ∀ b ∈ String.utf8EncodeChar c, b ∉ exits (d.rank q) (s.renumber d.rank) := by
      intro b hb hmem
      have h := hall b hb
      rw [List.contains_iff_mem.2 hmem] at h
      exact Bool.false_ne_true h
    obtain ⟨h0, hloop⟩ := isLoop_of_skips hne hexit
    rw [get?_renumber] at hloop
    obtain ⟨t, ht, hloop⟩ := Option.map_eq_some_iff.1 hloop
    injection hloop with htarget hreluctant
    have htransition := (transition?_eq hs (Point.ofChar c)).trans ht
    refine ⟨?_, t, htransition, ?_, hreluctant⟩
    · rintro rfl
      exact h0 (rank_start hd.start)
    · exact (rank_inj (hd.target q _ t htransition) hq).1 htarget

end PatternAutomata.Dfa
