import PatternAutomata.Dfa.Subset
import PatternAutomata.Nfa.Build
import PatternAutomata.Proofs.CanonicalMaps
import PatternAutomata.Proofs.Generate
import Mathlib.Data.Char

/-!
Which states skip characters. The exits of a state come from the runs of its transitions, and a run
counts if it holds one ASCII character and no other. So the characters that a state is left on are
its exits if they are few, if all are ASCII, and if none of them shares its run with another one;
but a surrogate that the state is left on takes the exits from it too.
-/

set_option autoImplicit false

namespace PatternAutomata

open PointMap (Run)

/-! ### Runs and where they end -/

namespace PointMap

variable {V : Type} {m : PointMap V}

theorem stop_of_mem_runsFrom {es : List (Entry V)} {r : Run V} (hr : r ∈ runsFrom es) :
    r.span.stop = Point.top ∨ ∃ e ∈ es, e.start = r.span.stop := by
  induction es using runsFrom.induct with
  | case1 => cases hr
  | case2 e =>
    obtain rfl := List.mem_singleton.1 hr
    exact .inl rfl
  | case3 e e' es ih =>
    rcases List.mem_cons.1 hr with rfl | hr
    · exact .inr ⟨e', List.mem_cons_of_mem _ List.mem_cons_self, rfl⟩
    · rcases ih hr with htop | ⟨x, hx, hstart⟩
      · exact .inl htop
      · exact .inr ⟨x, List.mem_cons_of_mem _ hx, hstart⟩

theorem get?_stop_ne {r : Run V} (hr : r ∈ m.runs) (h : r.span.stop < Point.top) :
    m.get? r.span.stop ≠ r.value := by
  have hbounds := m.run_bounds hr
  obtain ⟨e, he, hstart⟩ := (stop_of_mem_runsFrom hr).resolve_left (by omega)
  obtain ⟨-, hvalue, hchange⟩ := mem_entries_iff.1 he
  rw [hstart] at hvalue hchange
  rw [← hvalue] at hchange
  have hlast := m.get?_of_mem_runs hr (Span.contains_iff.2 ⟨by omega, by omega⟩ :
    r.span.contains (r.span.stop - 1) = true)
  rw [← hlast]
  exact (hchange.resolve_left (by omega)).symm

end PointMap

/-! ### What a state does -/

namespace Program

/-- The state loops on the point, and a text is not stopped before it. -/
def Loops (p : Program) (id : ℕ) (x : ℤ) : Prop := ∃ update, p.act id x = .goto id update false

structure LeavesOn (p : Program) (id : ℕ) (cs : List Char) : Prop where
  ascending : cs.Pairwise (· < ·)
  mem : ∀ c, c ∈ cs ↔ ¬ p.Loops id (Point.ofChar c)

/-- The state loops on surrogates, and what it does on a character it does not loop on is not what
it does on the next one. -/
structure TellsApart (p : Program) (id : ℕ) : Prop where
  surrogates : ∀ x, Span.surrogates.contains x = true → p.Loops id x
  neighbours : ∀ c c' : Char, c'.toNat = c.toNat + 1 → ¬ p.Loops id (Point.ofChar c) →
    p.act id (Point.ofChar c) ≠ p.act id (Point.ofChar c')

theorem LeavesOn.eq {p : Program} {id : ℕ} {cs cs' : List Char} (h : p.LeavesOn id cs)
    (h' : p.LeavesOn id cs') : cs = cs' :=
  @Ascending.eq_of_mem_iff _ _ _ (fun c => c) cs cs' h.ascending h'.ascending fun c => by
    rw [h.mem, h'.mem]

end Program

namespace Dfa

section

variable {d : Dfa} {accelerate : Bool} {id : ℕ} {s : State} (hs : d.reorder.states[id]? = some s)

include hs

theorem loops_iff {x : ℤ} (hx : Point.InDomain x) : (Program.ofDfa d accelerate).Loops id x ↔
    s.transitions.get? x = some ⟨id, false⟩ := by
  rw [Program.Loops, act_eq_action hs hx]
  cases ht : s.transitions.get? x with
  | none => simp
  | some t =>
    rw [Option.map_some, Option.getD_some, action, Option.some.injEq]
    constructor
    · rintro ⟨update, h⟩
      injection h with htarget _ hreluctant
      cases t
      cases htarget
      cases hreluctant
      rfl
    · rintro rfl
      exact ⟨_, rfl⟩

/-- Transitions that differ have actions that differ. -/
theorem act_eq_act_iff {x y : ℤ} (hx : Point.InDomain x) (hy : Point.InDomain y) :
    (Program.ofDfa d accelerate).act id x = (Program.ofDfa d accelerate).act id y ↔
      s.transitions.get? x = s.transitions.get? y := by
  rw [act_eq_action hs hx, act_eq_action hs hy]
  constructor
  · intro h
    cases ht : s.transitions.get? x with
    | none =>
      cases hu : s.transitions.get? y with
      | none => rfl
      | some u =>
        rw [ht, hu] at h
        cases h
    | some t =>
      cases hu : s.transitions.get? y with
      | none =>
        rw [ht, hu] at h
        cases h
      | some u =>
        rw [ht, hu] at h
        injection h with htarget _ hreluctant
        cases t
        cases u
        cases htarget
        cases hreluctant
        rfl
  · intro h
    rw [h]

end

/-! ### Runs that a state is left on -/

def first (r : Run Transition) : ℤ := max r.span.start 0

theorem contains_first {id : ℕ} {s : State} {r : Run Transition} (hr : r ∈ leaving id s) :
    r.span.contains (first r) = true := by
  obtain ⟨hr, -, hstop⟩ := mem_leaving.1 hr
  have hbounds := s.transitions.run_bounds hr
  rw [Span.contains_iff, first]
  omega

/-- Without the end of input the run holds just one point, and that is ASCII. -/
def OneAscii (r : Run Transition) : Prop := r.span.stop = first r + 1 ∧ first r ≤ 0x7F

theorem OneAscii.eq_first {r : Run Transition} (h : OneAscii r) {x : ℤ} (h0 : 0 ≤ x)
    (hx : r.span.contains x = true) : x = first r := by
  have hbounds := Span.contains_iff.1 hx
  obtain ⟨hstop, -⟩ := h
  rw [first] at hstop ⊢
  omega

def charOf (r : Run Transition) : Char := Char.ofNat (first r).toNat

theorem OneAscii.toNat_charOf {r : Run Transition} (h : OneAscii r) :
    (charOf r).toNat = (first r).toNat := by
  have hascii := h.2
  exact Point.toNat_ofNat (.inl (by omega))

theorem OneAscii.ofChar_charOf {r : Run Transition} (h : OneAscii r) :
    Point.ofChar (charOf r) = first r := by
  rw [Point.ofChar, h.toNat_charOf]
  exact Int.toNat_of_nonneg (le_max_right _ _)

theorem asciiOf?_eq_some_iff {r : Run Transition} {b : UInt8} :
    asciiOf? r.span = some b ↔ OneAscii r ∧ UInt8.ofNat (first r).toNat = b := by
  rw [asciiOf?, OneAscii, first]
  constructor
  · intro h
    split at h
    case isFalse => cases h
    case isTrue hone => exact ⟨⟨by omega, hone.2⟩, Option.some.inj h⟩
  · rintro ⟨hone, rfl⟩
    rw [if_pos ⟨by omega, hone.2⟩]

/-- The byte of each run, if a state is left on no others than such runs and these are few. -/
theorem exits_eq {id : ℕ} {s : State} (h0 : id ≠ start) (h : ∀ r ∈ leaving id s, OneAscii r)
    (hlength : (leaving id s).length ≤ StateCode.maxExits) :
    exits id s = ((leaving id s).map charOf).map fun c => UInt8.ofNat c.toNat := by
  have hbytes : (leaving id s).mapM (fun r => asciiOf? r.span) =
      some (((leaving id s).map charOf).map fun c => UInt8.ofNat c.toNat) := by
    rw [mapM_eq_some_iff, List.map_map, List.map_map]
    refine List.map_congr_left fun r hr => asciiOf?_eq_some_iff.2 ⟨h r hr, ?_⟩
    rw [← (h r hr).toNat_charOf]
  rw [exits, ← leaving]
  simp only [hbytes]
  rw [if_pos ⟨h0, by rwa [List.length_map, List.length_map]⟩]

theorem oneAscii_of_exits {id : ℕ} {s : State} (h : exits id s ≠ []) :
    (∀ r ∈ leaving id s, OneAscii r) ∧ (leaving id s).length ≤ StateCode.maxExits := by
  obtain ⟨-, hfew, hbytes⟩ := exits_spec h
  have hlength := congrArg List.length hbytes
  rw [List.length_map, List.length_map] at hlength
  refine ⟨fun r hr => ?_, hlength ▸ hfew⟩
  obtain ⟨b, -, hb⟩ := List.mem_map.1 (hbytes ▸ List.mem_map_of_mem hr)
  exact (asciiOf?_eq_some_iff.1 hb.symm).1

/-! ### Characters that a state is left on -/

section

variable {d : Dfa} {accelerate : Bool} {id : ℕ} {s : State} (hs : d.reorder.states[id]? = some s)

include hs

theorem exists_leaving_of_not_loops {x : ℤ} (hx : Point.InDomain x) (h0 : 0 ≤ x)
    (hloop : ¬ (Program.ofDfa d accelerate).Loops id x) :
    ∃ r ∈ leaving id s, r.span.contains x = true := by
  rw [loops_iff hs hx] at hloop
  obtain ⟨r, hr, hc⟩ := s.transitions.exists_mem_runs hx
  have hbounds := Span.contains_iff.1 hc
  refine ⟨r, mem_leaving.2 ⟨hr, ?_, by omega⟩, hc⟩
  rwa [← s.transitions.get?_of_mem_runs hr hc]

theorem not_loops_of_leaving {r : Run Transition} {x : ℤ} (hr : r ∈ leaving id s)
    (hx : r.span.contains x = true) : ¬ (Program.ofDfa d accelerate).Loops id x := by
  obtain ⟨hruns, hloop, -⟩ := mem_leaving.1 hr
  have hbounds := s.transitions.run_bounds hruns
  have hxr := Span.contains_iff.1 hx
  rwa [loops_iff hs ⟨by omega, by omega⟩, s.transitions.get?_of_mem_runs hruns hx]

section One

variable (h : ∀ r ∈ leaving id s, OneAscii r)

include h

theorem leavesOn_leaving :
    (Program.ofDfa d accelerate).LeavesOn id ((leaving id s).map charOf) where
  ascending := by
    have hruns : (leaving id s).Pairwise fun r t => r.span.stop ≤ t.span.start :=
      s.transitions.pairwise_runs.sublist List.filter_sublist
    refine List.pairwise_map.2 (hruns.imp_of_mem fun {r t} hr ht hrt => ?_)
    rw [Char.lt_def, UInt32.lt_iff_toNat_lt, Char.toNat_val, Char.toNat_val,
      (h r hr).toNat_charOf, (h t ht).toNat_charOf]
    have hstop := (h r hr).1
    have hfirst : first t = max t.span.start 0 := rfl
    have hnonneg : 0 ≤ first r := le_max_right _ _
    omega
  mem c := by
    constructor
    · intro hc
      obtain ⟨r, hr, rfl⟩ := List.mem_map.1 hc
      rw [(h r hr).ofChar_charOf]
      exact not_loops_of_leaving hs hr (contains_first hr)
    · intro hloop
      obtain ⟨r, hr, hc⟩ := exists_leaving_of_not_loops hs (Point.inDomain_ofChar c)
        (Point.ofChar_nonneg c) hloop
      have hfirst := (h r hr).eq_first (Point.ofChar_nonneg c) hc
      rw [← (h r hr).ofChar_charOf] at hfirst
      exact List.mem_map.2 ⟨r, hr, (Char.toNat_inj.1 (Int.natCast_inj.1 hfirst)).symm⟩

theorem le_of_not_loops {x : ℤ} (hx : Point.InDomain x) (h0 : 0 ≤ x)
    (hloop : ¬ (Program.ofDfa d accelerate).Loops id x) : x ≤ 0x7F := by
  obtain ⟨r, hr, hc⟩ := exists_leaving_of_not_loops hs hx h0 hloop
  exact (h r hr).eq_first h0 hc ▸ (h r hr).2

theorem tellsApart_of_oneAscii : (Program.ofDfa d accelerate).TellsApart id where
  surrogates x hx := by
    have hbounds := Span.contains_iff.1 hx
    simp only [Span.surrogates] at hbounds
    have hdomain : Point.InDomain x := by
      rw [Point.InDomain, Point.endOfInput, Point.top]
      omega
    by_contra hloop
    have hle := le_of_not_loops hs h hdomain (by omega) hloop
    omega
  neighbours c c' hnext hloop := by
    have hc := Point.inDomain_ofChar c
    have hc' := Point.inDomain_ofChar c'
    obtain ⟨r, hr, hcr⟩ := exists_leaving_of_not_loops hs hc (Point.ofChar_nonneg c) hloop
    have hruns := (mem_leaving.1 hr).1
    have hfirst := (h r hr).eq_first (Point.ofChar_nonneg c) hcr
    -- The next character is where the run ends.
    have hstop : r.span.stop = Point.ofChar c' := by
      rw [(h r hr).1, ← hfirst]
      simp only [Point.ofChar, hnext]
      rfl
    have hne := PointMap.get?_stop_ne hruns (hstop ▸ hc'.2)
    rw [hstop, ← s.transitions.get?_of_mem_runs hruns hcr] at hne
    rw [Ne, act_eq_act_iff hs hc hc']
    exact hne.symm

end One

section Apart

variable (hascii : ∀ c, ¬ (Program.ofDfa d accelerate).Loops id (Point.ofChar c) → c.toNat ≤ 0x7F)
  (hapart : (Program.ofDfa d accelerate).TellsApart id)

include hascii hapart

theorem exists_ofChar_of_leaving {r : Run Transition} {x : ℤ} (hr : r ∈ leaving id s) (h0 : 0 ≤ x)
    (hx : r.span.contains x = true) : ∃ c, Point.ofChar c = x ∧ c.toNat ≤ 0x7F := by
  have hbounds := s.transitions.run_bounds (mem_leaving.1 hr).1
  have hxr := Span.contains_iff.1 hx
  have hloop : ¬ (Program.ofDfa d accelerate).Loops id x := not_loops_of_leaving hs hr hx
  have hsome : (Point.char? x).isSome = true := by
    rw [Point.isSome_char?_iff]
    by_contra hnone
    refine hloop (hapart.surrogates x ?_)
    rw [Span.contains_iff, Span.surrogates]
    simp only
    omega
  obtain ⟨c, hc⟩ := Option.isSome_iff_exists.1 hsome
  obtain rfl := Point.ofChar_of_char? hc
  exact ⟨c, rfl, hascii c hloop⟩

theorem oneAscii_of_tellsApart {r : Run Transition} (hr : r ∈ leaving id s) : OneAscii r := by
  have hruns := (mem_leaving.1 hr).1
  have hfirst := contains_first hr
  obtain ⟨c, hc, hle⟩ := exists_ofChar_of_leaving hs hascii hapart hr (le_max_right _ _) hfirst
  change Point.ofChar c = first r at hc
  rw [← hc] at hfirst
  have hin := Span.contains_iff.1 hfirst
  have hnonneg := Point.ofChar_nonneg c
  rw [OneAscii, ← hc]
  refine ⟨?_, by simp only [Point.ofChar]; omega⟩
  -- Otherwise the next point is in the run as well, and so it is a character with the same action.
  by_contra hstop
  have hnext : r.span.contains (Point.ofChar c + 1) = true :=
    Span.contains_iff.2 ⟨by omega, by omega⟩
  obtain ⟨c', hc', -⟩ := exists_ofChar_of_leaving hs hascii hapart hr (by omega) hnext
  have hsucc : c'.toNat = c.toNat + 1 := by
    simp only [Point.ofChar] at hc'
    omega
  rw [← hc'] at hnext
  refine hapart.neighbours c c' hsucc (not_loops_of_leaving hs hr hfirst) ?_
  rw [act_eq_act_iff hs (Point.inDomain_ofChar c) (Point.inDomain_ofChar c'),
    s.transitions.get?_of_mem_runs hruns hfirst, s.transitions.get?_of_mem_runs hruns hnext]

end Apart

end

end Dfa

namespace Program

/-- A state other than the start state has exits exactly if it is left on one to three characters,
all of them ASCII, if what it does on one of them is never what it does on the next one, and if it
loops on every surrogate. The exits are then these characters, in ascending order. -/
theorem exits_exact {d : Dfa} {id : ℕ} {code : StateCode}
    (hcode : (ofDfa d true).states[id]? = some code) (h0 : id ≠ start) :
    (code.exits ≠ [] ↔
      (∃ cs, (ofDfa d true).LeavesOn id cs ∧ 1 ≤ cs.length ∧ cs.length ≤ 3 ∧
        ∀ c ∈ cs, c.toNat ≤ 0x7F) ∧ (ofDfa d true).TellsApart id) ∧
    (code.exits ≠ [] → ∀ cs, (ofDfa d true).LeavesOn id cs →
      code.exits = cs.map fun c => UInt8.ofNat c.toNat) := by
  obtain ⟨s, hs, hexits⟩ : ∃ s, d.reorder.states[id]? = some s ∧ code.exits = Dfa.exits id s := by
    simp only [ofDfa, Array.getElem?_mapIdx] at hcode
    obtain ⟨s, hs, rfl⟩ := Option.map_eq_some_iff.1 hcode
    exact ⟨s, hs, rfl⟩
  rw [hexits]
  have hbytes : Dfa.exits id s ≠ [] → ∀ cs, (ofDfa d true).LeavesOn id cs →
      Dfa.exits id s = cs.map fun c => UInt8.ofNat c.toNat := by
    intro hne cs hcs
    obtain ⟨hone, hlength⟩ := Dfa.oneAscii_of_exits hne
    rw [hcs.eq (Dfa.leavesOn_leaving hs hone), Dfa.exits_eq h0 hone hlength]
  refine ⟨⟨fun hne => ?_, ?_⟩, hbytes⟩
  · obtain ⟨hone, hlength⟩ := Dfa.oneAscii_of_exits hne
    have hleaves : (ofDfa d true).LeavesOn id _ := Dfa.leavesOn_leaving hs hone
    have hsome : (Dfa.leaving id s).map Dfa.charOf ≠ [] := by
      intro hnil
      rw [hbytes hne _ hleaves, hnil] at hne
      exact hne rfl
    refine ⟨⟨_, hleaves, List.length_pos_of_ne_nil hsome, by rwa [List.length_map],
      fun c hc => ?_⟩, Dfa.tellsApart_of_oneAscii hs hone⟩
    have hle := Dfa.le_of_not_loops hs hone (Point.inDomain_ofChar c) (Point.ofChar_nonneg c)
      ((hleaves.mem c).1 hc)
    simp only [Point.ofChar] at hle
    omega
  · rintro ⟨⟨cs, hleaves, hpos, hlength, hascii⟩, hapart⟩
    have hone : ∀ r ∈ Dfa.leaving id s, Dfa.OneAscii r := fun r hr =>
      Dfa.oneAscii_of_tellsApart hs (fun c hc => hascii c ((hleaves.mem c).2 hc)) hapart hr
    have hcs := hleaves.eq (Dfa.leavesOn_leaving hs hone)
    rw [hcs, List.length_map] at hlength
    rw [Dfa.exits_eq h0 hone hlength, ← hcs, Ne, List.map_eq_nil_iff]
    exact List.ne_nil_of_length_pos hpos

/-- The state that a letter leads to is left on two neighbours, and has no exits. -/
theorem no_exits_of_neighbours :
    ∃ d, (Nfa.ofNodes [.concat [.text ['x'],
        .zeroOrMore (.set (PointSet.ofSpan (.ofChars 'a' 'b')).complement)]]).determinize none =
        .ok d ∧
      ∃ code, (ofDfa d true).states[1]? = some code ∧ code.exits = [] ∧
        (ofDfa d true).LeavesOn 1 ['a', 'b'] := by
  have hrun : ((Nfa.ofNodes [.concat [.text ['x'],
      .zeroOrMore (.set (PointSet.ofSpan (.ofChars 'a' 'b')).complement)]]).determinize
        none).toOption.map (fun d => (ofDfa d true).states[1]?) =
      some (some ⟨some 0, ⟨[(-1, .goto 2 (.set 0) false)], #[.split 97 2,
        .leaf (.goto 1 .keep false), .split 99 4, .leaf .fail, .leaf (.goto 1 .keep false)]⟩,
        [], by decide⟩) := by
    decide +kernel
  obtain ⟨d, hd, hcode⟩ := Option.map_eq_some_iff.1 hrun
  refine ⟨d, ok_of_toOption hd, _, hcode, rfl, by decide, fun c => ?_⟩
  have hmem : c ∈ ['a', 'b'] ↔ Point.ofChar c = 97 ∨ Point.ofChar c = 98 := by
    simp only [List.mem_cons, List.not_mem_nil, or_false, ← Char.toNat_inj, Point.ofChar]
    exact or_congr Int.natCast_inj.symm Int.natCast_inj.symm
  have hnonneg := Point.ofChar_nonneg c
  rw [hmem, Loops, act, hcode]
  generalize Point.ofChar c = x at hnonneg
  have hend : ¬ -1 = x := by omega
  by_cases hlow : x < 97
  · simp [Decision.lookup, Decision.follow, hend, hlow]
    omega
  · by_cases hhigh : x < 99
    · simp [Decision.lookup, Decision.follow, hend, hlow, hhigh]
      omega
    · simp [Decision.lookup, Decision.follow, hend, hlow, hhigh]
      omega

/-- The exits of a state that is left on two characters with one between them. -/
theorem exits_exact_apart :
    ∃ d, (Nfa.ofNodes [.concat [.text ['x'],
        .zeroOrMore (.set (PointSet.ofSpans [.single 97, .single 99]).complement)]]).determinize
        none = .ok d ∧
      ∃ code, (ofDfa d true).states[1]? = some code ∧ code.exits = [97, 99] ∧
        ∃ cs, (ofDfa d true).LeavesOn 1 cs ∧ cs.map (fun c => UInt8.ofNat c.toNat) = [97, 99] := by
  have hrun : ((Nfa.ofNodes [.concat [.text ['x'],
      .zeroOrMore (.set (PointSet.ofSpans [.single 97, .single 99]).complement)]]).determinize
        none).toOption.map (fun d => (ofDfa d true).states[1]?.map (·.exits)) =
      some (some [97, 99]) := by
    decide +kernel
  obtain ⟨d, hd, hcode⟩ := Option.map_eq_some_iff.1 hrun
  obtain ⟨code, hcode, hexits⟩ := Option.map_eq_some_iff.1 hcode
  have hne : code.exits ≠ [] := hexits ▸ by decide
  obtain ⟨hiff, hbytes⟩ := exits_exact hcode (by decide)
  obtain ⟨⟨cs, hcs, -⟩, -⟩ := hiff.1 hne
  exact ⟨d, ok_of_toOption hd, code, hcode, hexits, cs, hcs, (hbytes hne cs hcs).symm.trans hexits⟩

end Program

end PatternAutomata
