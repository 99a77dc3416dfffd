import PatternAutomata.Proofs.Bounds.Access
import PatternAutomata.Proofs.Marks
import PatternAutomata.Proofs.Matcher

/-!
Errors point at what they report. The offsets in a state are marked in the text however far it is
read, and so is the position of the error with which a run or its end is refused.

The position in a state is always between two characters, so that a parser which cuts the pattern
there for each character that it reads never cuts a character in two.
-/

set_option autoImplicit false

namespace PatternAutomata.Parser

/-! ### A run -/

section Runs

variable {limit : ℕ} {s t : State} {w v : List Char} {c : Char}

theorem marked_stepMode (hrun : run limit .initial w = .ok s)
    (hgroups : AllHoldAt w s.groupStarts '(') (hmode : s.mode.Marks limit w) :
    Marked limit (w ++ [c]) (stepMode limit s c) := by
  have ho := offset_run_initial hrun
  unfold stepMode
  split
  all_goals
    rename_i hm
    rw [hm] at hmode
  · refine marked_stepUnion hgroups ho hm fun hnil => ⟨s, hrun, ?_⟩
    rw [State.opened, State.groupStarts, hm, hnil]
    rfl
  · exact marked_stepGroupHead hgroups ho hmode
  · exact marked_stepGroupFlag hgroups ho hmode
  · exact marked_stepGroupFlagP hgroups ho hmode
  · exact marked_stepGroupName hgroups ho hmode
  · exact marked_stepCount hgroups hmode
  · exact marked_stepClass hgroups hmode.1 ho hrun hm hmode.2
  · exact marked_stepEscape hgroups hmode
  · exact marked_stepHexHead hgroups hmode
  · obtain ⟨l, ds, hds, hmissing, hl, h⟩ := hmode
    exact marked_stepHexFixed hgroups hds hmissing hl h
  · obtain ⟨ds, hds, rfl, hlength, h⟩ := hmode
    exact marked_stepHexBraced hgroups hds hlength h

theorem marked_step (hrun : run limit .initial w = .ok s) (h : Marked limit w (.ok s)) :
    Marked limit (w ++ [c]) (step limit s c) := by
  have hmode := marked_stepMode (c := c) hrun h.1 h.2
  unfold step
  cases hs : stepMode limit s c with
  | error e =>
    rw [hs] at hmode
    exact hmode
  | ok t =>
    rw [hs] at hmode
    exact .keep hmode.1 rfl hmode.2

/-- However far a pattern is read, the offsets in the state are marked in it. -/
theorem marked_run (h : run limit .initial w = .ok s) : Marked limit w (.ok s) := by
  induction w using List.reverseRecOn generalizing s with
  | nil =>
    obtain rfl := Except.ok.inj h
    exact ⟨nofun, trivial⟩
  | append_singleton w c ih =>
    rw [run_append] at h
    obtain ⟨t, ht, h⟩ := ok_of_bind h
    have hstep := marked_step (c := c) ht (ih ht)
    rw [run_cons] at h
    obtain ⟨u, hu, h⟩ := ok_of_bind h
    obtain rfl := Except.ok.inj h
    rwa [hu] at hstep

theorem exists_staysOpen {start : ℕ} (hrun : run limit .initial w = .ok s)
    (hopened : s.opened.head? = some start) (hc : HoldsAt w start c) :
    ∃ before after, w = before ++ after ∧ Offset.byteLength before = start ∧ [c] <+: after ∧
      StaysOpen limit before after := by
  obtain ⟨u, before, rfl, rfl⟩ := hc
  exact ⟨before, c :: u, rfl, rfl, List.prefix_append [c] u, s, hrun, hopened⟩

theorem Since.exists {start : ℕ} {u : List Char} (h : Since w start u) {problem : ParseProblem}
    (hu : ∀ before, Shows limit before u problem) : ∃ before after, w = before ++ after ∧
      Offset.byteLength before = start ∧ Shows limit before after problem := by
  obtain ⟨before, rfl, hstart⟩ := h
  exact ⟨before, u, rfl, hstart, hu before⟩

theorem shows_finish {e : ParseError} (hrun : run limit .initial w = .ok s)
    (h : finish s = .error e) : ∃ before after, w = before ++ after ∧
      Offset.byteLength before = e.position ∧ Shows limit before after e.problem := by
  have ho := offset_run_initial hrun
  obtain ⟨hgroups, hmode⟩ := marked_run hrun
  have hopened : s.opened = s.mode.opened ++ s.groupStarts := rfl
  have hhere : w = w ++ [] := (List.append_nil w).symm
  cases hm : s.mode
  all_goals
    rw [hm] at hmode hopened
    simp only [finish, hm] at h
  case union =>
    cases hg : s.groups with
    | nil =>
      rw [hg] at h
      cases h
    | cons g gs =>
      rw [hg] at h
      obtain rfl := Except.error.inj h
      rw [State.groupStarts, hg] at hopened hgroups
      exact exists_staysOpen hrun (congrArg List.head? hopened) (hgroups _ List.mem_cons_self)
  case groupHead start =>
    obtain rfl := Except.error.inj h
    exact exists_staysOpen hrun (congrArg List.head? hopened) hmode.holdsAt
  case groupFlag start =>
    obtain rfl := Except.error.inj h
    obtain ⟨before, rfl, -⟩ := hmode
    exact ⟨_, [], hhere, ho.symm, List.suffix_append before _, by simp, by simp, by simp⟩
  case groupFlagP start flag =>
    obtain rfl := Except.error.inj h
    obtain ⟨-, before, rfl, hflag, hopener⟩ := hmode
    exact ⟨before, ['P'], rfl, hflag, hopener, by decide, by decide, by decide⟩
  case groupName start nameStart letters =>
    obtain rfl := Except.error.inj h
    obtain ⟨-, hletters, before, hbefore, -, hopener⟩ := hmode
    refine ⟨w, [], hhere, ho.symm, ⟨before, letters.reverse, hbefore, hopener, ?_⟩, by simp⟩
    exact fun d hd => hletters d (List.mem_reverse.1 hd)
  case count start read =>
    obtain rfl := Except.error.inj h
    obtain ⟨u, hw, hu⟩ := hmode
    exact hw.exists fun _ => brace_of_counted hu
  case inClass inner outer place =>
    obtain rfl := Except.error.inj h
    exact exists_staysOpen hrun (congrArg List.head? hopened) (hmode.1 _ List.mem_cons_self)
  case escape start site =>
    obtain rfl := Except.error.inj h
    exact hmode.1.exists fun _ => rfl
  case hexHead start site =>
    obtain rfl := Except.error.inj h
    exact hmode.1.exists fun _ => .inr (List.prefix_refl _)
  case hexFixed start site missing value =>
    obtain rfl := Except.error.inj h
    obtain ⟨l, ds, -, -, hl, hw, -⟩ := hmode
    exact hw.exists fun _ => prefix_of_fixedLengths hl ds
  case hexBraced start site length value =>
    obtain rfl := Except.error.inj h
    obtain ⟨ds, -, -, -, hw, -⟩ := hmode
    exact hw.exists fun _ => .inr (List.prefix_append ['\\', 'u'] _)

theorem exists_of_run_error {e : ParseError} (h : run limit s w = .error e) :
    ∃ before c after t, w = before ++ c :: after ∧ run limit s before = .ok t ∧
      step limit t c = .error e := by
  induction w generalizing s with
  | nil => cases h
  | cons c w ih =>
    rw [run_cons] at h
    cases hs : step limit s c with
    | error e' =>
      rw [hs] at h
      obtain rfl := Except.error.inj h
      exact ⟨[], c, w, s, rfl, rfl, hs⟩
    | ok t =>
      rw [hs] at h
      obtain ⟨before, d, after, u, rfl, hrun, hd⟩ := ih h
      exact ⟨c :: before, d, after, u, rfl, by rw [run_cons, hs]; exact hrun, hd⟩

theorem shows_parseChars {e : ParseError} (h : parseChars limit w = .error e) :
    ∃ before after, w = before ++ after ∧ Offset.byteLength before = e.position ∧
      Shows limit before after e.problem := by
  change run limit .initial w >>= finish = _ at h
  cases hrun : run limit .initial w with
  | ok s =>
    rw [hrun] at h
    exact shows_finish hrun h
  | error e' =>
    rw [hrun] at h
    obtain rfl := Except.error.inj h
    obtain ⟨before, c, after, t, rfl, ht, hstep⟩ := exists_of_run_error hrun
    have hmarked := marked_step (c := c) ht (marked_run ht)
    rw [hstep] at hmarked
    obtain ⟨v, u, hread, hposition, hshows⟩ := hmarked
    refine ⟨v, u ++ after, ?_, hposition, hshows after⟩
    rw [← List.append_assoc, ← hread, List.append_assoc]
    rfl

end Runs

/-! ### Reading at an offset -/

def reread (text : List Char) (s : State) : Except Fault State :=
  match s.mode with
  | .groupName start nameStart _ =>
    (Matcher.slice text nameStart s.offset).map fun name =>
      s.inMode (.groupName start nameStart name.reverse)
  | _ => .ok s

theorem offset_reread {text : List Char} {s t : State} (h : reread text s = .ok t) :
    t.offset = s.offset := by
  unfold reread at h
  split at h
  · obtain ⟨name, -, rfl⟩ := ok_of_map h
    rfl
  · obtain rfl := Except.ok.inj h
    rfl

theorem offset_step {limit : ℕ} {s t : State} {c : Char} (h : step limit s c = .ok t) :
    t.offset = s.offset + c.utf8Size := by
  have hrun : run limit s [c] = .ok t := by
    rw [run_cons, h]
    rfl
  exact offset_run hrun

/-- Goes on from a state by reading, over and over, the character at its offset. An offset inside of
a character, or behind the end, would be a fault; and so would be such ends of a name. -/
def parseAt (limit : ℕ) (text : List Char) (s : State) : Except (Failure ParseError) Node :=
  match _hcut : Offset.cut? s.offset text with
  | none => .error (.fault .outOfRange)
  | some (_, []) => (finish s).mapError .refused
  | some (_, c :: _) =>
    match _hreread : reread text s with
    | .error f => .error (.fault f)
    | .ok s' =>
      match _hstep : step limit s' c with
      | .error e => .error (.refused e)
      | .ok t => parseAt limit text t
termination_by Offset.byteLength text - s.offset
decreasing_by
  obtain ⟨hsplit, hlength⟩ := Offset.cut?_eq_some _hcut
  have hpos := c.utf8Size_pos
  rw [offset_step _hstep, offset_reread _hreread, hsplit, Offset.byteLength_append,
    Offset.byteLength]
  omega

section

variable {limit : ℕ} {s : State} {w v : List Char}

theorem reread_eq_ok (hrun : run limit .initial w = .ok s) : reread (w ++ v) s = .ok s := by
  have hmode := (marked_run hrun).2
  unfold reread
  split
  case h_1 start nameStart letters hm =>
    rw [hm] at hmode
    obtain ⟨-, -, before, rfl, hname, -⟩ := hmode
    have hbetween : Offset.Between (before ++ letters.reverse ++ v) nameStart s.offset
        letters.reverse := by
      refine ⟨before, v, List.append_assoc _ _ _, hname, ?_⟩
      rw [offset_run_initial hrun, Offset.byteLength_append, hname]
    rw [Matcher.slice_eq_ok hbetween]
    change Except.ok (s.inMode (.groupName start nameStart letters.reverse.reverse)) = _
    rw [List.reverse_reverse, ← hm]
    rfl
  case h_2 => rfl

/-- Reading at offsets comes to what reading one character after another does. -/
theorem parseAt_eq (hrun : run limit .initial w = .ok s) :
    parseAt limit (w ++ v) s = (run limit s v >>= finish).mapError .refused := by
  induction v generalizing w s with
  | nil =>
    have hcut := Offset.cut?_append w []
    rw [← offset_run_initial hrun] at hcut
    rw [parseAt]
    split
    case h_1 hnone =>
      rw [hcut] at hnone
      cases hnone
    case h_2 => rfl
    case h_3 c rest hsome =>
      rw [hcut] at hsome
      cases hsome
  | cons c v ih =>
    have hcut := Offset.cut?_append w (c :: v)
    rw [← offset_run_initial hrun] at hcut
    rw [parseAt]
    split
    case h_1 hnone =>
      rw [hcut] at hnone
      cases hnone
    case h_2 hsome =>
      rw [hcut] at hsome
      cases hsome
    case h_3 d rest hsome =>
      rw [hcut] at hsome
      obtain ⟨-, hrest⟩ := Prod.mk.inj (Option.some.inj hsome)
      obtain ⟨rfl, rfl⟩ := List.cons.inj hrest
      have hreread := reread_eq_ok (v := c :: v) hrun
      split
      case h_1 f hfault =>
        rw [hreread] at hfault
        cases hfault
      case h_2 s' hs' =>
        rw [hreread] at hs'
        obtain rfl := Except.ok.inj hs'
        rw [run_cons]
        split
        case h_1 e he =>
          rw [he]
          rfl
        case h_2 t ht =>
          have hnext : run limit .initial (w ++ [c]) = .ok t := by
            rw [run_append, hrun]
            change run limit s [c] = _
            rw [run_cons, ht]
            rfl
          have hrest := ih hnext
          rw [List.append_assoc] at hrest
          rw [ht]
          exact hrest

/-- The text between two offsets that were read up to can be cut out. -/
theorem slice_eq_of_run {t : State} {u : List Char} (hs : run limit .initial w = .ok s)
    (ht : run limit s u = .ok t) : Matcher.slice (w ++ u ++ v) s.offset t.offset = .ok u := by
  refine Matcher.slice_eq_ok ⟨w, v, List.append_assoc w u v, (offset_run_initial hs).symm, ?_⟩
  exact (offset_run ht).symm

end

/-- Errors point at what they report. A parser that reads the character at its offset, over and
over, comes to an end without a fault and to the same result, and whatever it has read between two
of its offsets can be cut out of the text. The position of an error is between two characters of
the pattern, or at one of its ends, with on either side of it what fits the problem. -/
theorem parse_error_shows (limit : ℕ) (pattern : String) :
    parseAt limit pattern.toList .initial = (parse limit pattern).mapError .refused ∧
    (∀ w u v s t, pattern.toList = w ++ u ++ v → run limit .initial w = .ok s →
      run limit s u = .ok t → Matcher.slice pattern.toList s.offset t.offset = .ok u) ∧
    ∀ e, parse limit pattern = .error e → ∃ before after, pattern.toList = before ++ after ∧
      Offset.byteLength before = e.position ∧ e.position ≤ pattern.utf8ByteSize ∧
      Shows limit before after e.problem := by
  refine ⟨parseAt_eq (w := []) rfl, fun w u v s t hsplit hs ht => ?_, fun e h => ?_⟩
  · rw [hsplit]
    exact slice_eq_of_run hs ht
  · obtain ⟨before, after, hsplit, hposition, hshows⟩ := shows_parseChars h
    refine ⟨before, after, hsplit, hposition, ?_, hshows⟩
    rw [← hposition, ← Offset.byteLength_toList, hsplit, Offset.byteLength_append]
    exact Nat.le_add_right _ _

theorem parse_error_shows_multibyte : parse 9 "é[☃-a]" = .error ⟨.classRangeInvalid, 3⟩ ∧
    ∃ before after, "é[☃-a]".toList = before ++ after ∧ Offset.byteLength before = 3 ∧
      3 ≤ "é[☃-a]".utf8ByteSize ∧ Shows 9 before after .classRangeInvalid := by
  have h : parse 9 "é[☃-a]" = .error ⟨.classRangeInvalid, 3⟩ := by decide +kernel
  exact ⟨h, (parse_error_shows 9 "é[☃-a]").2.2 _ h⟩

end PatternAutomata.Parser
