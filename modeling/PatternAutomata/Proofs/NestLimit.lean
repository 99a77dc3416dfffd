import PatternAutomata.Proofs.ClassReading
import PatternAutomata.Text
import Mathlib.Order.Bounds.Basic

/-!
How the limit on nesting enters into reading. What is open is known by the offsets of the opening
characters, innermost first. A character is read alike under every limit and keeps what is open, up
to the innermost, which it may close; or it opens a group or a class, which is refused where the
counter has come to the limit (`Gated`). The counter goes up and down with what is open, so it is
always their number (`State.Counted`).

Hence readings under two limits agree until the smaller one stops its reading, and that happens at
the first place where something is opened at this depth.
-/

set_option autoImplicit false

namespace PatternAutomata.Parser

def classStarts (inner : OpenClass) (outer : List OpenClass) : List ℕ :=
  (inner :: outer).map (·.start)

def EscapeSite.starts : EscapeSite → List ℕ
  | .term => []
  | .item inner outer => classStarts inner outer
  | .upper inner outer _ _ => classStarts inner outer

def Mode.opened : Mode → List ℕ
  | .union => []
  | .groupHead start => [start]
  | .groupFlag start => [start]
  | .groupFlagP start _ => [start]
  | .groupName start _ _ => [start]
  | .count _ _ => []
  | .inClass inner outer _ => classStarts inner outer
  | .escape _ site => site.starts
  | .hexHead _ site => site.starts
  | .hexFixed _ site _ _ => site.starts
  | .hexBraced _ site _ _ => site.starts

def State.groupStarts (s : State) : List ℕ := s.groups.map (·.start)

/-- Where the groups and classes that are open were opened, innermost first. -/
def State.opened (s : State) : List ℕ := s.mode.opened ++ s.groupStarts

def State.Counted (s : State) : Prop := s.depth = s.opened.length

/-- An outcome of reading `c` that opens nothing and is not due to a limit. -/
inductive Keeps (depth : ℕ) (opened : List ℕ) (c : Char) : Outcome → Prop
  | same {t : State} (h : t.opened = opened) (hd : t.depth = depth) : Keeps depth opened c (.ok t)
  | closed {t : State} (start : ℕ) (hc : c = ')' ∨ c = ']') (h : opened = start :: t.opened)
    (hd : t.depth = depth - 1) : Keeps depth opened c (.ok t)
  | refused {e : ParseError} (h : ∀ k, e.problem ≠ .nestLimitExceeded k) :
    Keeps depth opened c (.error e)

/-- How the limit enters into the outcome of reading `c` at an offset: not at all, or because `c`
opens a group or a class there. -/
inductive Gated (offset depth : ℕ) (opened : List ℕ) (c : Char) (outcome : ℕ → Outcome) : Prop
  | free {x : Outcome} (h : ∀ limit, outcome limit = x) (hx : Keeps depth opened c x)
  | opening {t : State} (hc : c = '(' ∨ c = '[') (ht : t.opened = offset :: opened)
    (hd : t.depth = depth + 1) (h : ∀ limit, outcome limit =
      if limit ≤ depth then fail (.nestLimitExceeded limit) offset else .ok t)

/-! ### One character -/

section Steps

variable {s : State} {start : ℕ} {site : EscapeSite} {c d : Char} {inner : OpenClass}
  {outer : List OpenClass} {opened : List ℕ}

theorem keeps_closeRange (lower upper : Char) :
    Keeps s.depth (classStarts inner outer ++ s.groupStarts) c
      (closeRange s inner outer lower start upper) := by
  unfold closeRange
  split
  · exact .refused nofun
  · exact .same rfl rfl

theorem keeps_deliverChar :
    Keeps s.depth (site.starts ++ s.groupStarts) c (deliverChar s start site d) := by
  cases site with
  | term => exact .same rfl rfl
  | item inner outer => exact .same rfl rfl
  | upper inner outer lower itemStart => exact keeps_closeRange lower d

theorem keeps_deliverClass (members : PointSet) :
    Keeps s.depth (site.starts ++ s.groupStarts) c (deliverClass s site members) := by
  cases site with
  | term => exact .same rfl rfl
  | item inner outer => exact .same rfl rfl
  | upper inner outer lower itemStart => exact .refused nofun

theorem keeps_deliverCode (code : ℕ) :
    Keeps s.depth (site.starts ++ s.groupStarts) c (deliverCode s start site code) := by
  unfold deliverCode
  split
  · exact keeps_deliverChar
  · exact .refused nofun

theorem keeps_stepEscape :
    Keeps s.depth (site.starts ++ s.groupStarts) c (stepEscape s start site c) := by
  unfold stepEscape
  split_ifs
  · exact .same rfl rfl
  · exact .same rfl rfl
  · split
    · exact keeps_deliverClass _
    · exact keeps_deliverChar
    · exact .refused nofun

theorem keeps_stepHexFixed (missing value : ℕ) :
    Keeps s.depth (site.starts ++ s.groupStarts) c
      (stepHexFixed s start site missing value c) := by
  unfold stepHexFixed
  split
  · exact .refused fun _ h => by cases h
  · dsimp only
    split
    · exact keeps_deliverCode _
    · exact .same rfl rfl

theorem keeps_stepHexHead :
    Keeps s.depth (site.starts ++ s.groupStarts) c (stepHexHead s start site c) := by
  unfold stepHexHead
  split
  · exact .same rfl rfl
  · exact keeps_stepHexFixed 4 0

theorem keeps_stepHexBraced (length value : ℕ) :
    Keeps s.depth (site.starts ++ s.groupStarts) c
      (stepHexBraced s start site length value c) := by
  unfold stepHexBraced
  split
  · split
    · exact .same rfl rfl
    · exact .refused nofun
  · split
    · exact keeps_deliverCode _
    · exact .refused nofun

theorem keeps_finishCount (min : ℕ) (max : Option ℕ) :
    Keeps s.depth s.groupStarts c (finishCount s start min max) := by
  unfold finishCount
  split
  · exact .refused nofun
  · exact .same rfl rfl
  · split
    · exact .refused nofun
    · exact .same rfl rfl

theorem keeps_appendDigit (value digit : ℕ) (next : ℕ → Count) :
    Keeps s.depth s.groupStarts c (appendDigit s start value digit next) := by
  unfold appendDigit
  dsimp only
  split
  · exact .same rfl rfl
  · exact .refused nofun

theorem keeps_stepCount (count : Count) :
    Keeps s.depth s.groupStarts c (stepCount s start count c) := by
  unfold stepCount
  split
  case h_4 =>
    split_ifs
    · exact .same rfl rfl
    · exact keeps_finishCount _ _
    · exact .refused nofun
  case h_7 => exact .refused nofun
  all_goals first
    | exact keeps_appendDigit _ _ _
    | split
      · exact keeps_finishCount _ _
      · exact .refused nofun

theorem keeps_stepGroupFlag :
    Keeps s.depth (start :: s.groupStarts) c (stepGroupFlag s start c) := by
  unfold stepGroupFlag
  split
  · exact .same rfl rfl
  · exact .same rfl rfl
  · exact .same rfl rfl
  · exact .refused nofun

theorem keeps_stepGroupFlagP (flag : ℕ) :
    Keeps s.depth (start :: s.groupStarts) c (stepGroupFlagP s start flag c) := by
  unfold stepGroupFlagP
  split
  · exact .same rfl rfl
  · exact .refused nofun

theorem keeps_stepGroupName (nameStart : ℕ) (letters : List Char) :
    Keeps s.depth (start :: s.groupStarts) c (stepGroupName s start nameStart letters c) := by
  unfold stepGroupName
  split_ifs
  · exact .same rfl rfl
  · exact .refused nofun
  · exact .refused nofun
  · dsimp only
    split
    · exact .refused nofun
    · exact .same rfl rfl

theorem keeps_stepQuantifier (hs : s.mode.opened = []) :
    Keeps s.depth s.groupStarts c (stepQuantifier s c) := by
  have hopened : s.opened = s.groupStarts := by rw [State.opened, hs, List.nil_append]
  unfold stepQuantifier
  split
  case h_5 => exact .same rfl rfl
  case h_6 => exact .refused nofun
  all_goals exact .same hopened rfl

theorem keeps_closeGroup (hs : s.mode.opened = []) :
    Keeps s.depth s.groupStarts ')' (closeGroup s) := by
  unfold closeGroup
  split
  · exact .refused nofun
  · rename_i g gs hg
    refine .closed g.start (.inl rfl) ?_ rfl
    simp only [State.groupStarts, State.opened, State.leave, hs, hg, List.nil_append,
      List.map_cons]

theorem keeps_closeClass (inner : OpenClass) (outer : List OpenClass) :
    Keeps s.depth (classStarts inner outer ++ s.groupStarts) ']'
      (.ok (closeClass s inner outer)) := by
  cases outer with
  | nil => exact .closed inner.start (.inr rfl) rfl rfl
  | cons o os => exact .closed inner.start (.inr rfl) rfl rfl

theorem gated_enter {next : State} (hc : c = '(' ∨ c = '[') (hd : next.depth = s.depth)
    (hnext : next.opened = s.offset :: opened) :
    Gated s.offset s.depth opened c (enter · s next) :=
  .opening (t := next.deeper) hc hnext (congrArg Nat.succ hd) fun _ => rfl

theorem gated_stepUnion (hs : s.mode.opened = []) :
    Gated s.offset s.depth s.groupStarts c (stepUnion · s c) := by
  have hopened : s.opened = s.groupStarts := by rw [State.opened, hs, List.nil_append]
  unfold stepUnion
  split
  case h_1 => exact gated_enter (.inl rfl) rfl rfl
  case h_2 => exact .free (fun _ => rfl) (keeps_closeGroup hs)
  case h_3 =>
    exact .free (fun _ => rfl)
      (.same (t := { s with branch := s.branch.nextAlternative }) hopened rfl)
  case h_4 => exact gated_enter (.inr rfl) rfl rfl
  all_goals first
    | exact .free (fun _ => rfl) (.same rfl rfl)
    | exact .free (fun _ => rfl) (keeps_stepQuantifier hs)

theorem gated_stepGroupHead :
    Gated s.offset s.depth (start :: s.groupStarts) c (stepGroupHead · s start c) := by
  unfold stepGroupHead
  split
  · exact .free (fun _ => rfl) (.same rfl rfl)
  · let numbered := { s with nextGroup := s.nextGroup + 1 }
    exact gated_stepUnion (s := numbered.enterGroup start (some (.index s.nextGroup))) rfl

theorem gated_stepItem (inner : OpenClass) (outer : List OpenClass) (first : Bool) :
    Gated s.offset s.depth (classStarts inner outer ++ s.groupStarts) c
      (stepItem · s inner outer first c) := by
  unfold stepItem
  split_ifs with hclose hopen
  · exact .free (fun _ => rfl) (hclose.1 ▸ keeps_closeClass inner outer)
  · exact gated_enter (.inr hopen) rfl rfl
  · exact .free (fun _ => rfl) (.same rfl rfl)
  · exact .free (fun _ => rfl) (.same rfl rfl)

theorem gated_stepClass (place : ClassPlace) :
    Gated s.offset s.depth (classStarts inner outer ++ s.groupStarts) c
      (stepClass · s inner outer place c) := by
  cases place with
  | head =>
    dsimp only [stepClass]
    split
    · exact .free (fun _ => rfl) (.same rfl rfl)
    · exact gated_stepItem inner outer true
  | first => exact gated_stepItem inner outer true
  | items => exact gated_stepItem inner outer false
  | lower lower start =>
    dsimp only [stepClass]
    split
    · exact .free (fun _ => rfl) (.same rfl rfl)
    · exact gated_stepItem (inner.unite (.single lower)) outer false
  | hyphen lower start =>
    dsimp only [stepClass]
    split_ifs with hclose
    · have hkeeps := keeps_closeClass (s := s)
        ((inner.unite (.single lower)).unite (.single '-')) outer
      exact .free (fun _ => rfl) (hclose ▸ hkeeps)
    · exact .free (fun _ => rfl) (.same rfl rfl)
    · exact .free (fun _ => rfl) (keeps_closeRange lower c)

theorem gated_stepMode (s : State) (c : Char) :
    Gated s.offset s.depth s.opened c (stepMode · s c) := by
  unfold State.opened stepMode
  cases hm : s.mode with
  | union => exact gated_stepUnion (hm ▸ rfl)
  | groupHead start => exact gated_stepGroupHead
  | groupFlag start => exact .free (fun _ => rfl) keeps_stepGroupFlag
  | groupFlagP start flag => exact .free (fun _ => rfl) (keeps_stepGroupFlagP flag)
  | groupName start nameStart letters =>
    exact .free (fun _ => rfl) (keeps_stepGroupName nameStart letters)
  | count start count => exact .free (fun _ => rfl) (keeps_stepCount count)
  | inClass inner outer place => exact gated_stepClass place
  | escape start site => exact .free (fun _ => rfl) keeps_stepEscape
  | hexHead start site => exact .free (fun _ => rfl) keeps_stepHexHead
  | hexFixed start site missing value =>
    exact .free (fun _ => rfl) (keeps_stepHexFixed missing value)
  | hexBraced start site length value =>
    exact .free (fun _ => rfl) (keeps_stepHexBraced length value)

/-- What else is done to the state afterwards changes nothing, as long as the same is open. -/
theorem Gated.map {offset depth : ℕ} {f : ℕ → Outcome} {g : State → State}
    (h : Gated offset depth opened c f) (hg : ∀ t, (g t).opened = t.opened)
    (hd : ∀ t, (g t).depth = t.depth) :
    Gated offset depth opened c fun limit => (f limit).map g := by
  cases h with
  | @free x hf hx =>
    refine .free (x := x.map g) (fun limit => congrArg _ (hf limit)) ?_
    cases hx with
    | same h hdepth => exact .same ((hg _).trans h) ((hd _).trans hdepth)
    | closed start hc h hdepth =>
      exact .closed start hc (h.trans (congrArg _ (hg _).symm)) ((hd _).trans hdepth)
    | refused h => exact .refused h
  | @opening t hc ht hdepth h =>
    refine .opening hc ((hg t).trans ht) ((hd t).trans hdepth) fun limit =>
      (congrArg _ (h limit)).trans ?_
    split <;> rfl

theorem gated_step (s : State) (c : Char) : Gated s.offset s.depth s.opened c (step · s c) :=
  (gated_stepMode s c).map (fun _ => rfl) fun _ => rfl

end Steps

/-! ### A run -/

/-- Reading `w`, a parser opens a group or a class with the character at `position`, while `depth`
groups and classes are open. Its limit matters only for getting there. -/
def OpensAt (w : List Char) (depth position : ℕ) : Prop :=
  ∃ (limit : ℕ) (before : List Char) (c : Char) (after : List Char) (s t : State),
    w = before ++ c :: after ∧ Offset.byteLength before = position ∧ (c = '(' ∨ c = '[') ∧
    run limit .initial before = .ok s ∧ s.opened.length = depth ∧
    step limit s c = .ok t ∧ t.opened = position :: s.opened

structure Opens (s : State) (c : Char) (t : State) : Prop where
  char : c = '(' ∨ c = '['
  opened : t.opened = s.offset :: s.opened
  step : ∀ limit, s.depth < limit → step limit s c = .ok t

def Ungated {α : Type} (x : Except ParseError α) : Prop :=
  ∀ k i, x ≠ .error ⟨.nestLimitExceeded k, i⟩

section Runs

variable {m n k i limit : ℕ} {s t u : State} {c : Char} {w : List Char}

theorem offset_run (h : run limit s w = .ok t) : t.offset = s.offset + Offset.byteLength w := by
  induction w generalizing s with
  | nil =>
    cases h
    rfl
  | cons c w ih =>
    rw [run_cons] at h
    obtain ⟨u, hu, h⟩ := ok_of_bind h
    have hoffset : u.offset = s.offset + c.utf8Size := by
      unfold step at hu
      cases hs : stepMode limit s c with
      | error e =>
        rw [hs] at hu
        cases hu
      | ok v =>
        rw [hs] at hu
        cases hu
        rfl
    rw [ih h, hoffset, Offset.byteLength, Nat.add_assoc]

theorem offset_run_initial (h : run limit .initial w = .ok t) :
    t.offset = Offset.byteLength w :=
  (offset_run h).trans (Nat.zero_add _)

/-- A character that opens something is refused by every limit that is reached there. -/
theorem step_of_opens (h : step limit s c = .ok t) (ht : t.opened = s.offset :: s.opened)
    (hm : m ≤ s.depth) : step m s c = fail (.nestLimitExceeded m) s.offset := by
  cases gated_step s c with
  | free hf hx =>
    rw [hf limit] at h
    subst h
    have hlength := congrArg List.length ht
    cases hx with
    | same heq =>
      rw [heq, List.length_cons] at hlength
      omega
    | closed start hc heq =>
      rw [heq, List.length_cons, List.length_cons] at hlength
      omega
  | opening hc ht' hd hf => exact (hf m).trans (if_pos hm)

theorem State.Counted.depth_eq (h : s.Counted) :
    s.depth = s.mode.opened.length + s.groups.length := by
  rw [h, State.opened, List.length_append, State.groupStarts, List.length_map]

/-- The counter goes up and down with what is open, and not above the limit. -/
theorem counted_step (h : step m s c = .ok t) (hs : s.Counted) :
    t.Counted ∧ (s.depth ≤ m → t.depth ≤ m) := by
  cases gated_step s c with
  | free hf hx =>
    rw [hf m] at h
    subst h
    cases hx with
    | same heq hd => exact ⟨by rw [State.Counted, hd, heq, hs], fun hle => hd ▸ hle⟩
    | closed start hc heq hd =>
      rw [State.Counted, heq, List.length_cons] at hs
      exact ⟨by rw [State.Counted, hd, hs, Nat.add_sub_cancel], fun hle => by omega⟩
  | opening hc ht hd hf =>
    rw [hf m] at h
    split at h
    · cases h
    · cases h
      exact ⟨by rw [State.Counted, hd, ht, List.length_cons, hs], fun _ => by omega⟩

theorem counted_run (h : run m s w = .ok t) (hs : s.Counted) :
    t.Counted ∧ (s.depth ≤ m → t.depth ≤ m) := by
  induction w generalizing s with
  | nil =>
    cases h
    exact ⟨hs, id⟩
  | cons c w ih =>
    rw [run_cons] at h
    obtain ⟨u, hu, h⟩ := ok_of_bind h
    obtain ⟨hmiddle, hle⟩ := counted_step hu hs
    obtain ⟨hcounted, hlast⟩ := ih h hmiddle
    exact ⟨hcounted, hlast ∘ hle⟩

theorem depth_run_initial (h : run m .initial w = .ok t) :
    t.depth = t.opened.length ∧ t.depth ≤ m := by
  obtain ⟨hcounted, hle⟩ := counted_run h rfl
  exact ⟨hcounted, hle (Nat.zero_le m)⟩

theorem step_agree (hl : m ≤ n) (h : Ungated (step m s c)) : step n s c = step m s c := by
  cases gated_step s c with
  | free hf hx => rw [hf n, hf m]
  | opening hc ht hd hf =>
    have hm : ¬m ≤ s.depth := fun hm => h m s.offset ((hf m).trans (if_pos hm))
    rw [hf n, hf m, if_neg hm, if_neg fun hn => hm (hl.trans hn)]

/-- A reading that its limit does not stop goes the same under a larger one. -/
theorem run_agree (hl : m ≤ n) (h : Ungated (run m s w)) : run n s w = run m s w := by
  induction w generalizing s with
  | nil => rfl
  | cons c w ih =>
    rw [run_cons] at h ⊢
    rw [run_cons]
    have hstep : step n s c = step m s c :=
      step_agree hl fun k i he => h k i (congrArg (· >>= fun t => run m t w) he)
    rw [hstep]
    cases hs : step m s c with
    | error e => rfl
    | ok t =>
      rw [hs] at h
      exact ih h

theorem run_agree_ok (hl : m ≤ n) (h : run m s w = .ok t) : run n s w = .ok t :=
  (run_agree hl (by rw [h]; exact fun _ _ => nofun)).trans h

theorem run_unique (h : run m s w = .ok t) (h' : run n s w = .ok u) : t = u := by
  have hm := run_agree_ok (Nat.le_max_left m n) h
  have hn := run_agree_ok (Nat.le_max_right m n) h'
  exact Except.ok.inj (hm.symm.trans hn)

theorem opens_of_step (h : step m s c = .error ⟨.nestLimitExceeded k, i⟩) :
    k = m ∧ i = s.offset ∧ m ≤ s.depth ∧ ∃ t, Opens s c t := by
  cases gated_step s c with
  | free hf hx =>
    rw [hf m] at h
    subst h
    cases hx with
    | refused hx => exact absurd rfl (hx k)
  | @opening t hc ht hd hf =>
    rw [hf m] at h
    split at h
    · rename_i hm
      obtain ⟨hk, rfl⟩ := ParseError.mk.inj (Except.error.inj h)
      obtain rfl := ParseProblem.nestLimitExceeded.inj hk
      refine ⟨rfl, rfl, hm, t, hc, ht, fun limit hlimit => ?_⟩
      rw [hf limit, if_neg (Nat.not_le.2 hlimit)]
    · cases h

theorem opens_of_run (h : run m s w = .error ⟨.nestLimitExceeded k, i⟩) :
    k = m ∧ ∃ (before : List Char) (c : Char) (after : List Char) (t u : State),
      w = before ++ c :: after ∧ run m s before = .ok t ∧ i = t.offset ∧ m ≤ t.depth ∧
      Opens t c u := by
  induction w generalizing s with
  | nil => cases h
  | cons c w ih =>
    rw [run_cons] at h
    cases hs : step m s c with
    | ok t =>
      rw [hs] at h
      obtain ⟨hk, before, d, after, t', u, rfl, hrun, hrest⟩ := ih h
      exact ⟨hk, c :: before, d, after, t', u, rfl, by rw [run_cons, hs]; exact hrun, hrest⟩
    | error e =>
      rw [hs] at h
      obtain rfl := Except.error.inj h
      obtain ⟨hk, hi, hm, u, hu⟩ := opens_of_step hs
      exact ⟨hk, [], c, w, s, u, rfl, rfl, hi, hm, hu⟩

theorem exists_run_of_append {v : List Char} (h : run m s (w ++ c :: v) = .ok t) :
    ∃ u u', run m s w = .ok u ∧ step m u c = .ok u' := by
  rw [run_append] at h
  obtain ⟨u, hu, h⟩ := ok_of_bind h
  rw [run_cons] at h
  obtain ⟨u', hu', -⟩ := ok_of_bind h
  exact ⟨u, u', hu, hu'⟩

/-- A limit stops the reading at the latest where something is opened at its depth. -/
theorem exists_stop_of_opensAt (h : OpensAt w m i) :
    ∃ k j, run m .initial w = .error ⟨.nestLimitExceeded k, j⟩ := by
  obtain ⟨limit, before, c, after, s, t, rfl, rfl, -, hs, hdepth, ht, hopened⟩ := h
  by_contra hnone
  -- As nothing stops the reading before, it is in the state that the other limit leads to.
  have hbefore : run m .initial before = .ok s := by
    have hun : Ungated (run m .initial before) := fun k j he =>
      hnone ⟨k, j, by rw [run_append, he]; rfl⟩
    have hmax := run_agree (Nat.le_max_left m limit) hun
    rw [← hmax, run_agree_ok (Nat.le_max_right m limit) hs]
  have hopens : t.opened = s.offset :: s.opened := offset_run_initial hs ▸ hopened
  refine hnone ⟨m, s.offset, ?_⟩
  rw [run_append, hbefore]
  change run m s (c :: after) = _
  rw [run_cons, step_of_opens ht hopens ((depth_run_initial hs).1.trans hdepth).ge]
  rfl

/-- Where the limit stops the reading is the first place at which something is opened at this
depth. -/
theorem isLeast_of_run (h : run m .initial w = .error ⟨.nestLimitExceeded k, i⟩) :
    k = m ∧ IsLeast {i | OpensAt w m i} i := by
  obtain ⟨hk, before, c, after, s, t, rfl, hs, rfl, hm, hopens⟩ := opens_of_run h
  obtain ⟨hcounted, hle⟩ := depth_run_initial hs
  have hoffset := offset_run_initial hs
  have hdepth : s.opened.length = m := hcounted.symm.trans (Nat.le_antisymm hle hm)
  refine ⟨hk, ?_, ?_⟩
  · exact ⟨m + 1, before, c, after, s, t, rfl, hoffset.symm, hopens.char,
      run_agree_ok (Nat.le_succ m) hs, hdepth, hopens.step _ (Nat.lt_succ_of_le hle), hopens.opened⟩
  · rintro j ⟨limit, before', c', after', s', t', hw, rfl, -, hs', hdepth', ht', hopened'⟩
    rw [hoffset]
    rcases List.append_eq_append_iff.1 hw with ⟨v, rfl, -⟩ | ⟨v, rfl, hv⟩
    · rw [Offset.byteLength_append]
      exact Nat.le_add_right _ _
    · -- Something was opened at this depth before, which the limit would have refused.
      cases v with
      | nil => rw [List.append_nil]
      | cons d v =>
        obtain ⟨rfl, -⟩ := List.cons.inj hv
        obtain ⟨u, u', hu, hu'⟩ := exists_run_of_append hs
        obtain rfl := run_unique hu hs'
        have hreached := ((depth_run_initial hu).1.trans hdepth').ge
        rw [step_of_opens ht' (offset_run_initial hu ▸ hopened') hreached] at hu'
        cases hu'

end Runs

/-! ### A pattern -/

section Patterns

variable {m n k i : ℕ} {pattern : String}

theorem ungated_finish (s : State) : Ungated (finish s) := by
  intro k i h
  unfold finish at h
  split at h <;> cases h

theorem parse_eq_error_iff : parse m pattern = .error ⟨.nestLimitExceeded k, i⟩ ↔
    run m .initial pattern.toList = .error ⟨.nestLimitExceeded k, i⟩ := by
  change run m .initial pattern.toList >>= finish = _ ↔ _
  cases run m .initial pattern.toList with
  | error e =>
    exact ⟨fun h => congrArg Except.error (Except.error.inj h),
      fun h => congrArg Except.error (Except.error.inj h)⟩
  | ok s => exact ⟨fun h => absurd h (ungated_finish s k i), nofun⟩

theorem parse_agree (hl : m ≤ n) (h : Ungated (parse m pattern)) :
    parse n pattern = parse m pattern :=
  congrArg (· >>= finish) (run_agree hl fun k i he => h k i (parse_eq_error_iff.2 he))

theorem parse_mono (hl : m ≤ n) {node : Node} (h : parse m pattern = .ok node) :
    parse n pattern = .ok node :=
  (parse_agree hl (by rw [h]; exact fun _ _ => nofun)).trans h

/-- The limit on nesting only gates. A pattern that is read under some limit is read alike under a
larger one, and one that is refused for another reason is refused alike. Wherever the reading gets,
the counter is the number of groups and classes that are open there. The limit itself refuses a
pattern exactly if something is opened while as many groups and classes are open as it says, and at
the first place where that is so. -/
theorem parse_limit (hl : m ≤ n) (pattern : String) :
    (∀ node, parse m pattern = .ok node → parse n pattern = .ok node) ∧
    (∀ e, parse m pattern = .error e → (∀ k, e.problem ≠ .nestLimitExceeded k) →
      parse n pattern = .error e) ∧
    (∀ w s, run m .initial w = .ok s → s.depth = s.opened.length ∧ s.depth ≤ m) ∧
    ∀ k i, parse m pattern = .error ⟨.nestLimitExceeded k, i⟩ ↔
      k = m ∧ IsLeast {i | OpensAt pattern.toList m i} i := by
  refine ⟨fun node h => parse_mono hl h, fun e h he => ?_, fun w s => depth_run_initial,
    fun k i => ?_⟩
  · refine (parse_agree hl fun k i hk => ?_).trans h
    obtain rfl := Except.error.inj (h.symm.trans hk)
    exact he k rfl
  · rw [parse_eq_error_iff]
    refine ⟨isLeast_of_run, fun ⟨hk, hi⟩ => ?_⟩
    obtain ⟨k', i', h⟩ := exists_stop_of_opensAt hi.1
    obtain ⟨rfl, hi'⟩ := isLeast_of_run h
    rw [h, hk, hi.unique hi']

/-- A group that is closed again leaves room for a class, but not for the class within it. -/
theorem parse_limit_nested : 1 ≤ 2 ∧
    parse 1 "(a)[b[c]]" = .error ⟨.nestLimitExceeded 1, 5⟩ ∧
    parse 1 "(a)*\x7b2" = parse 2 "(a)*\x7b2" ∧
    IsLeast {i | OpensAt "(a)[b[c]]".toList 1 i} 5 := by
  have hstopped : parse 1 "(a)[b[c]]" = .error ⟨.nestLimitExceeded 1, 5⟩ := by decide +kernel
  have hmalformed : parse 1 "(a)*\x7b2" = .error ⟨.repetitionCountMalformed, 4⟩ := by decide +kernel
  obtain ⟨-, hrefused, -⟩ := parse_limit (show 1 ≤ 2 by decide) "(a)*\x7b2"
  obtain ⟨-, -, -, hleast⟩ := parse_limit (show 1 ≤ 2 by decide) "(a)[b[c]]"
  refine ⟨by decide, hstopped, ?_, ((hleast 1 5).1 hstopped).2⟩
  rw [hmalformed, hrefused _ hmalformed fun _ => nofun]

end Patterns

end PatternAutomata.Parser
