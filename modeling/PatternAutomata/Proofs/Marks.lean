import PatternAutomata.Proofs.Derivation
import PatternAutomata.Proofs.NestLimit

/-!
What the offsets in a state stand for. `Shows` says what has to be found on either side of the
position of an error. The offsets that a state holds are those of places that were read, and
`Mode.Marks` says for each of them what the text holds from there on. One character keeps this, or
it is refused with an error whose position is the current one or one of these (`Marked`).
-/

set_option autoImplicit false

namespace PatternAutomata.Parser

open Grammar

/-! ### What is found at an error -/

inductive BeginsItem : ClassPlace → (first : Bool) → Char → Prop
  | head {c : Char} (h : c ≠ '^') : BeginsItem .head true c
  | first {c : Char} : BeginsItem .first true c
  | items {c : Char} : BeginsItem .items false c
  | lower {lower c : Char} {start : ℕ} (h : c ≠ '-') : BeginsItem (.lower lower start) false c

/-- Reading `before` leads into a class, to a place where `c` begins an item. -/
def ItemAt (limit : ℕ) (before : List Char) (first : Bool) (c : Char) : Prop :=
  ∃ s inner outer place, run limit .initial before = .ok s ∧
    s.mode = .inClass inner outer place ∧ BeginsItem place first c

/-- The text ends in what comes before a group name. -/
def EndsInOpener (before : List Char) : Prop :=
  ['(', '?', '<'] <:+ before ∨ ['(', '?', 'P', '<'] <:+ before

/-- At the end of a pattern, the innermost of what is open was opened right behind `before`. -/
def StaysOpen (limit : ℕ) (before after : List Char) : Prop :=
  ∃ s, run limit .initial (before ++ after) = .ok s ∧
    s.opened.head? = some (Offset.byteLength before)

/-- What a problem says of the text before its position and of that from there on. -/
def Shows (limit : ℕ) (before after : List Char) : ParseProblem → Prop
  | .groupUnclosed => ['('] <+: after ∧ StaysOpen limit before after
  | .groupUnopened => [')'] <+: after ∧ ∃ s, run limit .initial before = .ok s ∧ s.opened = []
  | .groupNameEmpty => EndsInOpener before ∧ ['>'] <+: after
  | .groupNameInvalid =>
    (∃ opener name, before = opener ++ name ∧ EndsInOpener opener ∧ ∀ c ∈ name, IsNameChar c) ∧
      ∀ c, [c] <+: after → ¬ IsNameChar c ∧ c ≠ '>'
  | .groupNameDuplicate name => EndsInOpener before ∧ name.toList ++ ['>'] <+: after
  | .groupFlagUnsupported =>
    ['(', '?'] <:+ before ∧ ¬ [':'] <+: after ∧ ¬ ['<'] <+: after ∧ ¬ ['P', '<'] <+: after
  | .classUnclosed => ['['] <+: after ∧ StaysOpen limit before after
  | .classRangeInvalid =>
    ∃ first c v lower u, ItemAt limit before first c ∧ [c] <+: after ∧ LowerChar first v lower ∧
      v ++ '-' :: u <+: after ∧
      ((∃ upper, UpperChar u upper ∧ upper < lower) ∨ ∃ members, ClassEscape u members)
  | .escapeUnexpectedEnd => after = ['\\']
  | .escapeUnrecognized c => ['\\', c] <+: after
  | .escapeHexInvalid => ['\\', 'x'] <+: after ∨ ['\\', 'u'] <+: after
  | .repetitionMissing => ∃ c ∈ ['*', '+', '?', '\x7b'], [c] <+: after
  | .repetitionCountInvalid min max =>
    max < min ∧ ∃ ds es, IsCount ds min ∧ IsCount es max ∧
      '\x7b' :: (ds ++ ',' :: (es ++ ['\x7d'])) <+: after
  | .repetitionCountMalformed => ['\x7b'] <+: after
  | .nestLimitExceeded n => n = limit ∧ (['('] <+: after ∨ ['['] <+: after)

/-! ### What is read from an offset on -/

section Since

variable {limit start : ℕ} {w u v : List Char} {c : Char} {first : Bool}

def Since (w : List Char) (start : ℕ) (u : List Char) : Prop :=
  ∃ before, w = before ++ u ∧ Offset.byteLength before = start

theorem Since.snoc (h : Since w start u) (c : Char) : Since (w ++ [c]) start (u ++ [c]) := by
  obtain ⟨before, rfl, hstart⟩ := h
  exact ⟨before, List.append_assoc _ _ _, hstart⟩

theorem since_last (h : start = Offset.byteLength w) (c : Char) : Since (w ++ [c]) start [c] :=
  ⟨w, rfl, h.symm⟩

def HoldsAt (w : List Char) (start : ℕ) (c : Char) : Prop := ∃ u, Since w start (c :: u)

theorem HoldsAt.snoc (h : HoldsAt w start c) (d : Char) : HoldsAt (w ++ [d]) start c := by
  obtain ⟨u, hu⟩ := h
  exact ⟨u ++ [d], hu.snoc d⟩

def AllHoldAt (w : List Char) (starts : List ℕ) (c : Char) : Prop := ∀ i ∈ starts, HoldsAt w i c

theorem AllHoldAt.snoc {starts : List ℕ} (h : AllHoldAt w starts c) (d : Char) :
    AllHoldAt (w ++ [d]) starts c :=
  fun i hi => (h i hi).snoc d

theorem Since.holdsAt (h : Since w start (c :: u)) : HoldsAt w start c := ⟨u, h⟩

def ItemSince (limit : ℕ) (w : List Char) (start : ℕ) (first : Bool) (v : List Char) : Prop :=
  ∃ before c, w = before ++ v ∧ Offset.byteLength before = start ∧ [c] <+: v ∧
    ItemAt limit before first c

theorem ItemSince.snoc (h : ItemSince limit w start first v) (d : Char) :
    ItemSince limit (w ++ [d]) start first (v ++ [d]) := by
  obtain ⟨before, c, rfl, hstart, hc, hitem⟩ := h
  exact ⟨before, c, List.append_assoc _ _ _, hstart, hc.trans (List.prefix_append _ _), hitem⟩

theorem itemSince_last (h : ItemAt limit w first c) (hstart : start = Offset.byteLength w) :
    ItemSince limit (w ++ [c]) start first [c] :=
  ⟨w, c, rfl, hstart.symm, List.prefix_refl _, h⟩

end Since

theorem brace_of_counted {read : Count} {u : List Char} (hu : Counted read u) :
    ['\x7b'] <+: u := by
  match read, hu with
  | .min none, hu => exact hu ▸ List.prefix_refl _
  | .min (some m), ⟨ds, _, hu⟩ => exact hu ▸ List.prefix_append ['\x7b'] _
  | .comma m, ⟨ds, _, hu⟩ => exact hu ▸ List.prefix_append ['\x7b'] _
  | .max m n, ⟨ds, es, _, _, hu⟩ => exact hu ▸ List.prefix_append ['\x7b'] _

def EscapeSite.Marks (limit : ℕ) (w esc : List Char) (start : ℕ) : EscapeSite → Prop
  | .term => True
  | .item inner outer =>
    AllHoldAt w (classStarts inner outer) '[' ∧ ∃ first, ItemSince limit w start first esc
  | .upper inner outer lower itemStart =>
    AllHoldAt w (classStarts inner outer) '[' ∧
      ∃ first v, LowerChar first v lower ∧ ItemSince limit w itemStart first (v ++ '-' :: esc)

def Escaping (limit : ℕ) (w esc : List Char) (start : ℕ) (site : EscapeSite) : Prop :=
  Since w start esc ∧ site.Marks limit w esc start

def ClassPlace.Marks (limit : ℕ) (w : List Char) : ClassPlace → Prop
  | .head => True
  | .first => True
  | .items => True
  | .lower c start => ∃ first v, LowerChar first v c ∧ ItemSince limit w start first v
  | .hyphen c start =>
    ∃ first v, LowerChar first v c ∧ ItemSince limit w start first (v ++ ['-'])

/-- What the text says of the offsets that a mode holds. -/
def Mode.Marks (limit : ℕ) (w : List Char) : Mode → Prop
  | .union => True
  | .groupHead start => Since w start ['(']
  | .groupFlag start => Since w start ['(', '?']
  | .groupFlagP start flag =>
    Since w start ['(', '?', 'P'] ∧ ∃ before, w = before ++ ['P'] ∧ Offset.byteLength before = flag
      ∧ ['(', '?'] <:+ before
  | .groupName start nameStart letters =>
    HoldsAt w start '(' ∧ (∀ c ∈ letters, IsNameChar c) ∧ ∃ before,
      w = before ++ letters.reverse ∧ Offset.byteLength before = nameStart ∧ EndsInOpener before
  | .count start read => ∃ u, Since w start u ∧ Counted read u
  | .inClass inner outer place =>
    AllHoldAt w (classStarts inner outer) '[' ∧ place.Marks limit w
  | .escape start site => Escaping limit w ['\\'] start site
  | .hexHead start site => Escaping limit w ['\\', 'u'] start site
  | .hexFixed start site missing value =>
    ∃ l ds, IsHex ds value ∧ 0 < missing ∧ (l, ds.length + missing) ∈ fixedLengths ∧
      Escaping limit w ('\\' :: l :: ds) start site
  | .hexBraced start site length value =>
    ∃ ds, IsHex ds value ∧ ds.length = length ∧ length ≤ 6 ∧
      Escaping limit w ('\\' :: 'u' :: '\x7b' :: ds) start site

/-- An outcome of reading `w`: the offsets in the state are marked in `w`, or the error shows what
it reports, however the pattern goes on. -/
def Marked (limit : ℕ) (w : List Char) : Outcome → Prop
  | .ok t => AllHoldAt w t.groupStarts '(' ∧ t.mode.Marks limit w
  | .error e => ∃ before u, w = before ++ u ∧ Offset.byteLength before = e.position ∧
    ∀ rest, Shows limit before (u ++ rest) e.problem

/-! ### One character -/

section Steps

variable {limit start : ℕ} {s t : State} {w : List Char} {c : Char}
  (hgroups : AllHoldAt w s.groupStarts '(')

include hgroups

/-- No group is opened or closed. -/
theorem Marked.keep (ht : t.groups = s.groups) (hm : t.mode.Marks limit w) :
    Marked limit w (.ok t) := by
  refine ⟨fun i hi => hgroups i ?_, hm⟩
  rwa [State.groupStarts, ← ht]

theorem Marked.stay (ht : t.groups = s.groups) (hm : t.mode.Marks limit (w ++ [c])) :
    Marked limit (w ++ [c]) (.ok t) :=
  .keep (hgroups.snoc c) ht hm

theorem Marked.push (n : Node) : Marked limit w (.ok (s.push n)) := .keep hgroups rfl trivial

omit hgroups in
theorem Marked.here {problem : ParseProblem} (ho : s.offset = Offset.byteLength w)
    (h : ∀ rest, Shows limit w (c :: rest) problem) :
    Marked limit (w ++ [c]) (fail problem s.offset) :=
  ⟨w, [c], rfl, ho.symm, h⟩

omit hgroups in
theorem Marked.back {problem : ParseProblem} {u : List Char} (hu : Since w start u)
    (h : ∀ before rest, Shows limit before (u ++ rest) problem) :
    Marked limit w (fail problem start) := by
  obtain ⟨before, rfl, hstart⟩ := hu
  exact ⟨before, u, rfl, hstart, h before⟩

omit hgroups in
theorem Marked.enter (ho : s.offset = Offset.byteLength w) (hc : c = '(' ∨ c = '[')
    (ht : Marked limit (w ++ [c]) (.ok t)) : Marked limit (w ++ [c]) (enter limit s t) := by
  unfold Parser.enter
  split
  · refine .here ho fun rest => ⟨rfl, hc.imp ?_ ?_⟩
    · rintro rfl
      exact List.prefix_append ['('] rest
    · rintro rfl
      exact List.prefix_append ['['] rest
  · exact ht

theorem Marked.enterGroup (hstart : HoldsAt w start '(') (id : Option GroupId) :
    Marked limit w (.ok (s.enterGroup start id)) :=
  ⟨List.forall_mem_cons.2 ⟨hstart, hgroups⟩, trivial⟩

section Union

variable (ho : s.offset = Offset.byteLength w)

include ho

theorem marked_stepQuantifier (hm : s.mode = .union) (hc : c ∈ ['*', '+', '?', '\x7b']) :
    Marked limit (w ++ [c]) (stepQuantifier s c) := by
  have stays : ∀ branch, Marked limit (w ++ [c]) (.ok { s with branch := branch }) :=
    fun branch => .stay hgroups rfl (by rw [hm]; trivial)
  cases hn : s.branch.pending.node? with
  | none =>
    rw [stepQuantifier_none hn]
    exact .here ho fun rest => ⟨c, hc, List.prefix_append [c] rest⟩
  | some n =>
    obtain ⟨hstar, hplus, hbrace⟩ := stepQuantifier_of_node? hn
    simp only [List.mem_cons, List.not_mem_nil, or_false] at hc
    rcases hc with rfl | rfl | rfl | rfl
    · rw [hstar]
      exact stays _
    · rw [hplus]
      exact stays _
    · cases hp : s.branch.pending with
      | none =>
        rw [hp] at hn
        cases hn
      | term k =>
        rw [stepQuantifier_option hp]
        exact stays _
      | quantified k m max =>
        rw [stepQuantifier_mark hp]
        exact stays _
    · rw [hbrace]
      exact .stay hgroups rfl ⟨['\x7b'], since_last ho _, rfl⟩

theorem marked_closeGroup (hm : s.mode = .union)
    (hun : s.groups = [] → ∃ r, run limit .initial w = .ok r ∧ r.opened = []) :
    Marked limit (w ++ [')']) (closeGroup s) := by
  unfold closeGroup
  split
  case h_1 hnil => exact .here ho fun rest => ⟨List.prefix_append [')'] rest, hun hnil⟩
  case h_2 g gs hg =>
    refine ⟨fun i hi => (hgroups i ?_).snoc _, ?_⟩
    · rw [State.groupStarts, hg]
      exact List.mem_cons_of_mem _ hi
    · change Mode.Marks limit _ s.mode
      rw [hm]
      trivial

theorem marked_stepUnion (hm : s.mode = .union)
    (hun : s.groups = [] → ∃ r, run limit .initial w = .ok r ∧ r.opened = []) :
    Marked limit (w ++ [c]) (stepUnion limit s c) := by
  unfold stepUnion
  split
  · exact .enter ho (.inl rfl) (.stay hgroups rfl (since_last ho _))
  · exact marked_closeGroup hgroups ho hm hun
  · exact .stay hgroups rfl (by rw [hm]; trivial)
  · refine .enter ho (.inr rfl) (.stay hgroups rfl ⟨?_, trivial⟩)
    exact List.forall_mem_singleton.2 (since_last ho _).holdsAt
  · exact .push (hgroups.snoc _) _
  · exact .push (hgroups.snoc _) _
  · exact .push (hgroups.snoc _) _
  · exact .stay hgroups rfl ⟨since_last ho _, trivial⟩
  · exact marked_stepQuantifier hgroups ho hm (by decide)
  · exact marked_stepQuantifier hgroups ho hm (by decide)
  · exact marked_stepQuantifier hgroups ho hm (by decide)
  · exact marked_stepQuantifier hgroups ho hm (by decide)
  · exact .push (hgroups.snoc _) _

end Union

section Groups

variable (ho : s.offset = Offset.byteLength w)

include ho

theorem marked_stepGroupHead (hw : Since w start ['(']) :
    Marked limit (w ++ [c]) (stepGroupHead limit s start c) := by
  unfold stepGroupHead
  split
  case isTrue hc => exact .stay hgroups rfl (hc ▸ hw.snoc c)
  case isFalse =>
    -- The character is read in the group that the parenthesis has opened.
    refine marked_stepUnion (List.forall_mem_cons.2 ⟨hw.holdsAt, hgroups⟩) ho rfl fun h => ?_
    cases h

theorem marked_stepGroupFlag (hw : Since w start ['(', '?']) :
    Marked limit (w ++ [c]) (stepGroupFlag s start c) := by
  obtain ⟨before, hbefore, -⟩ := id hw
  have hopener : ['(', '?'] <:+ w := hbefore ▸ List.suffix_append before _
  unfold stepGroupFlag
  split
  · exact .enterGroup (hgroups.snoc _) (hw.holdsAt.snoc _) _
  · refine .stay hgroups rfl ⟨hw.holdsAt.snoc _, nofun, w ++ ['<'], ?_, ?_, .inl ⟨before, ?_⟩⟩
    · exact (List.append_nil _).symm
    · rw [Offset.byteLength_append, ho]
      rfl
    · rw [hbefore, List.append_assoc]
      rfl
  · exact .stay hgroups rfl ⟨hw.snoc _, w, rfl, ho.symm, hopener⟩
  · rename_i hplain hnamed hlettered
    refine .here ho fun rest => ⟨hopener, fun h => ?_, fun h => ?_, fun h => ?_⟩
    · exact hplain (List.cons_prefix_cons.1 h).1.symm
    · exact hnamed (List.cons_prefix_cons.1 h).1.symm
    · exact hlettered (List.cons_prefix_cons.1 h).1.symm

theorem marked_stepGroupFlagP {flag : ℕ} (hw : (Mode.groupFlagP start flag).Marks limit w) :
    Marked limit (w ++ [c]) (stepGroupFlagP s start flag c) := by
  obtain ⟨hw, before, hbefore, hflag, hopener⟩ := hw
  unfold stepGroupFlagP
  split
  case isTrue hc =>
    subst hc
    refine .stay hgroups rfl ⟨hw.holdsAt.snoc _, nofun, w ++ ['<'], ?_, ?_, ?_⟩
    · exact (List.append_nil _).symm
    · rw [Offset.byteLength_append, ho]
      rfl
    · obtain ⟨before, rfl, -⟩ := hw
      refine .inr ⟨before, ?_⟩
      rw [List.append_assoc]
      rfl
  case isFalse hc =>
    refine ⟨before, ['P', c], ?_, hflag, fun rest =>
      ⟨hopener, fun h => ?_, fun h => ?_, fun h => ?_⟩⟩
    · rw [hbefore, List.append_assoc]
      rfl
    · exact absurd (List.cons_prefix_cons.1 h).1 (by decide)
    · exact absurd (List.cons_prefix_cons.1 h).1 (by decide)
    · exact hc (List.cons_prefix_cons.1 (List.cons_prefix_cons.1 h).2).1.symm

theorem marked_stepGroupName {nameStart : ℕ} {letters : List Char}
    (hw : (Mode.groupName start nameStart letters).Marks limit w) :
    Marked limit (w ++ [c]) (stepGroupName s start nameStart letters c) := by
  obtain ⟨hstart, hletters, before, hbefore, hname, hopener⟩ := hw
  have hread : w ++ [c] = before ++ (letters.reverse ++ [c]) := by
    rw [hbefore, List.append_assoc]
  unfold stepGroupName
  split_ifs with hc hend hempty
  · refine .stay hgroups rfl ⟨hstart.snoc c, ?_, before, ?_, hname, hopener⟩
    · exact List.forall_mem_cons.2 ⟨(isNameChar_iff c).1 hc, hletters⟩
    · rw [hread, List.reverse_cons]
  · refine .here ho fun rest => ⟨⟨before, letters.reverse, hbefore, hopener, ?_⟩, fun d hd => ?_⟩
    · exact fun d hd => hletters d (List.mem_reverse.1 hd)
    · obtain rfl := (List.cons_prefix_cons.1 hd).1
      exact ⟨mt (isNameChar_iff d).2 hc, hend⟩
  · obtain rfl := not_not.1 hend
    obtain rfl := List.isEmpty_iff.1 hempty
    exact ⟨before, ['>'], hread, hname, fun rest => ⟨hopener, List.prefix_append ['>'] rest⟩⟩
  · obtain rfl := not_not.1 hend
    dsimp only
    split
    · refine ⟨before, _, hread, hname, fun rest => ⟨hopener, ?_⟩⟩
      rw [String.toList_ofList]
      exact List.prefix_append _ rest
    · exact .enterGroup (hgroups.snoc _) (hstart.snoc _) _

end Groups

section Counts

variable {u : List Char} (hw : Since w start u) (hu : ['\x7b'] <+: u)

omit hgroups in
include hu in
theorem brace_stays (rest : List Char) : ['\x7b'] <+: u ++ [c] ++ rest :=
  hu.trans ((List.prefix_append u [c]).trans (List.prefix_append (u ++ [c]) rest))

include hw hu

omit hgroups in
theorem marked_malformed : Marked limit (w ++ [c]) (fail .repetitionCountMalformed start) :=
  .back (hw.snoc c) fun _ => brace_stays hu

theorem marked_finishCount {min : ℕ} {max : Option ℕ}
    (hinvalid : ∀ x, max = some x → x < min → ∀ before rest,
      Shows limit before (u ++ [c] ++ rest) (.repetitionCountInvalid min x)) :
    Marked limit (w ++ [c]) (finishCount s start min max) := by
  unfold finishCount
  split
  · exact .back (hw.snoc c) fun _ rest => ⟨'\x7b', by decide, brace_stays hu rest⟩
  · exact .stay hgroups rfl trivial
  · split
    case isTrue hlt => exact .back (hw.snoc c) (hinvalid _ rfl hlt)
    case isFalse => exact .stay hgroups rfl trivial

theorem marked_appendDigit {value d : ℕ} {next : ℕ → Count}
    (hnext : value * 10 + d < 2 ^ 32 → Counted (next (value * 10 + d)) (u ++ [c])) :
    Marked limit (w ++ [c]) (appendDigit s start value d next) := by
  unfold appendDigit
  dsimp only
  split
  case isTrue hfits =>
    exact .stay hgroups rfl ⟨_, hw.snoc c, hnext ((lt_iff_le_countMax _).2 hfits)⟩
  case isFalse => exact marked_malformed hw hu

end Counts

theorem marked_stepCount {read : Count} (h : (Mode.count start read).Marks limit w) :
    Marked limit (w ++ [c]) (stepCount s start read c) := by
  obtain ⟨u, hw, hu⟩ := h
  have hbrace := brace_of_counted hu
  unfold stepCount
  split
  · rename_i value d hd
    refine marked_appendDigit hgroups hw hbrace fun hm => ?_
    cases value with
    | none =>
      obtain rfl := hu
      exact ⟨[c], isCount_singleton hd hm, rfl⟩
    | some m =>
      obtain ⟨ds, hds, rfl⟩ := hu
      exact ⟨ds ++ [c], IsCount.snoc hds hd hm, rfl⟩
  · rename_i m d hd
    refine marked_appendDigit hgroups hw hbrace fun hm => ?_
    obtain ⟨ds, hds, rfl⟩ := hu
    exact ⟨ds, [c], hds, isCount_singleton hd hm, by simp⟩
  · rename_i m value d hd
    refine marked_appendDigit hgroups hw hbrace fun hm => ?_
    obtain ⟨ds, es, hds, hes, rfl⟩ := hu
    exact ⟨ds, es ++ [c], hds, IsCount.snoc hes hd hm, by simp⟩
  · rename_i m _
    split_ifs with hcomma hclose
    · obtain ⟨ds, hds, rfl⟩ := hu
      exact .stay hgroups rfl ⟨_, hw.snoc c, ds, hds, by simp [hcomma]⟩
    · refine marked_finishCount hgroups hw hbrace fun x hx hlt => ?_
      obtain rfl := Option.some.inj hx
      exact absurd hlt (lt_irrefl m)
    · exact marked_malformed hw hbrace
  · split_ifs with hclose
    · exact marked_finishCount hgroups hw hbrace fun x hx => by cases hx
    · exact marked_malformed hw hbrace
  · rename_i m value _
    split_ifs with hclose
    · refine marked_finishCount hgroups hw hbrace fun x hx hlt before rest => ⟨hlt, ?_⟩
      obtain rfl := Option.some.inj hx
      obtain ⟨ds, es, hds, hes, rfl⟩ := hu
      exact ⟨ds, es, hds, hes, rest, by simp [hclose]⟩
    · exact marked_malformed hw hbrace
  · exact marked_malformed hw hbrace

end Steps

section Classes

variable {limit start : ℕ} {s t : State} {w : List Char} {c : Char} {inner : OpenClass}
  {outer : List OpenClass} {first : Bool} (hgroups : AllHoldAt w s.groupStarts '(')
  (hclasses : AllHoldAt w (classStarts inner outer) '[')

include hgroups hclasses

theorem Marked.item {place : ClassPlace} (hplace : place.Marks limit (w ++ [c])) :
    Marked limit (w ++ [c]) (.ok { s with mode := .inClass inner outer place }) :=
  .stay hgroups rfl ⟨hclasses.snoc c, hplace⟩

theorem marked_closeClass : Marked limit w (.ok (closeClass s inner outer)) := by
  cases outer with
  | nil => exact .push (s := s.leave) hgroups _
  | cons o os =>
    refine .keep hgroups rfl ⟨fun i hi => hclasses i ?_, trivial⟩
    exact List.mem_cons_of_mem _ hi

omit hgroups hclasses in
theorem marked_rangeInvalid {v u : List Char} {lower : Char}
    (hitem : ItemSince limit w start first (v ++ '-' :: u)) (hlower : LowerChar first v lower)
    (hu : (∃ upper, UpperChar u upper ∧ upper < lower) ∨ ∃ members, ClassEscape u members) :
    Marked limit w (fail .classRangeInvalid start) := by
  obtain ⟨before, c, rfl, hstart, hc, hbegin⟩ := hitem
  refine ⟨before, _, rfl, hstart, fun rest => ⟨first, c, v, lower, u, hbegin, ?_, hlower, ?_, hu⟩⟩
  · exact hc.trans (List.prefix_append _ rest)
  · exact List.prefix_append _ rest

theorem marked_closeRange {v u : List Char} {lower upper : Char}
    (hitem : ItemSince limit w start first (v ++ '-' :: u)) (hlower : LowerChar first v lower)
    (hupper : UpperChar u upper) :
    Marked limit w (closeRange s inner outer lower start upper) := by
  unfold closeRange
  split
  case isTrue hlt => exact marked_rangeInvalid hitem hlower (.inl ⟨upper, hupper, hlt⟩)
  case isFalse => exact .keep hgroups rfl ⟨hclasses, trivial⟩

theorem marked_stepItem (ho : s.offset = Offset.byteLength w) (hitem : ItemAt limit w first c) :
    Marked limit (w ++ [c]) (stepItem limit s inner outer first c) := by
  have hclasses' : AllHoldAt (w ++ [c]) (classStarts inner outer) '[' :=
    hclasses.snoc c
  unfold stepItem
  split_ifs with hclose hopen hescape
  · exact marked_closeClass (hgroups.snoc c) hclasses'
  · subst hopen
    refine .enter ho (.inr rfl) (.stay hgroups rfl ⟨?_, trivial⟩)
    exact List.forall_mem_cons.2 ⟨(since_last ho _).holdsAt, hclasses'⟩
  · subst hescape
    exact .stay hgroups rfl ⟨since_last ho _, hclasses', first, itemSince_last hitem ho⟩
  · refine .item hgroups hclasses ⟨first, [c], ?_, itemSince_last hitem ho⟩
    by_cases hc : c = ']'
    · subst hc
      exact .bracket (by simpa using hclose)
    · exact .plain (by simp [hc, hopen, hescape])

theorem marked_stepClass {place : ClassPlace} (ho : s.offset = Offset.byteLength w)
    (hrun : run limit .initial w = .ok s) (hm : s.mode = .inClass inner outer place)
    (hplace : place.Marks limit w) :
    Marked limit (w ++ [c]) (stepClass limit s inner outer place c) := by
  have hitem : ∀ {first}, BeginsItem place first c → ItemAt limit w first c :=
    fun h => ⟨s, inner, outer, place, hrun, hm, h⟩
  cases place with
  | head =>
    dsimp only [stepClass]
    split
    case isTrue =>
      have hnegated : AllHoldAt w (classStarts { inner with negated := true } outer) '[' := hclasses
      exact .item hgroups hnegated trivial
    case isFalse hc => exact marked_stepItem hgroups hclasses ho (hitem (.head hc))
  | first => exact marked_stepItem hgroups hclasses ho (hitem .first)
  | items => exact marked_stepItem hgroups hclasses ho (hitem .items)
  | lower lower start =>
    obtain ⟨first, v, hlower, hv⟩ := hplace
    dsimp only [stepClass]
    split
    case isTrue hc =>
      subst hc
      exact .item hgroups hclasses ⟨first, v, hlower, hv.snoc _⟩
    case isFalse hc =>
      have hunited : AllHoldAt w (classStarts (inner.unite (.single lower)) outer) '[' := hclasses
      exact marked_stepItem hgroups hunited ho (hitem (.lower hc))
  | hyphen lower start =>
    obtain ⟨first, v, hlower, hv⟩ := hplace
    have hread := hv.snoc c
    rw [List.append_assoc] at hread
    dsimp only [stepClass]
    split_ifs with hclose hescape
    · have hunited : AllHoldAt w
          (classStarts ((inner.unite (.single lower)).unite (.single '-')) outer) '[' := hclasses
      exact marked_closeClass (hgroups.snoc c) (hunited.snoc c)
    · subst hescape
      refine .stay hgroups rfl ⟨since_last ho _, hclasses.snoc _, ?_⟩
      exact ⟨first, v, hlower, hread⟩
    · exact marked_closeRange (hgroups.snoc c) (hclasses.snoc c) hread hlower
        (.plain (by simp [hclose, hescape]))

end Classes

section Escapes

variable {limit start : ℕ} {s : State} {w esc : List Char} {c d : Char} {site : EscapeSite}

theorem Escaping.snoc (h : Escaping limit w esc start site) (c : Char) :
    Escaping limit (w ++ [c]) (esc ++ [c]) start site := by
  obtain ⟨hesc, hsite⟩ := h
  refine ⟨hesc.snoc c, ?_⟩
  cases site with
  | term => trivial
  | item inner outer =>
    obtain ⟨hclasses, first, hitem⟩ := hsite
    exact ⟨hclasses.snoc c, first, hitem.snoc c⟩
  | upper inner outer lower itemStart =>
    obtain ⟨hclasses, first, v, hlower, hitem⟩ := hsite
    refine ⟨hclasses.snoc c, first, v, hlower, ?_⟩
    have hread := hitem.snoc c
    rwa [List.append_assoc] at hread

theorem prefix_of_fixedLengths {l : Char} {n : ℕ} (h : (l, n) ∈ fixedLengths) (ds : List Char) :
    ['\\', 'x'] <+: '\\' :: l :: ds ∨ ['\\', 'u'] <+: '\\' :: l :: ds := by
  simp only [fixedLengths, List.mem_cons, List.not_mem_nil, or_false, Prod.mk.injEq] at h
  rcases h with ⟨rfl, -⟩ | ⟨rfl, -⟩
  · exact .inl (List.prefix_append ['\\', 'x'] ds)
  · exact .inr (List.prefix_append ['\\', 'u'] ds)

theorem marked_hexInvalid (h : Escaping limit w esc start site)
    (hesc : ['\\', 'x'] <+: esc ∨ ['\\', 'u'] <+: esc) :
    Marked limit w (fail .escapeHexInvalid start) :=
  .back h.1 fun _ rest => hesc.imp (·.trans (List.prefix_append _ rest))
    (·.trans (List.prefix_append _ rest))

variable (hgroups : AllHoldAt w s.groupStarts '(')

section Deliver

include hgroups

theorem marked_deliverChar (h : Escaping limit w esc start site) (hesc : CharEscape esc d) :
    Marked limit w (deliverChar s start site d) := by
  obtain ⟨-, hsite⟩ := h
  cases site with
  | term => exact .push hgroups _
  | item inner outer =>
    obtain ⟨hclasses, first, hitem⟩ := hsite
    exact .keep hgroups rfl ⟨hclasses, first, esc, .escape hesc, hitem⟩
  | upper inner outer lower itemStart =>
    obtain ⟨hclasses, first, v, hlower, hitem⟩ := hsite
    exact marked_closeRange hgroups hclasses hitem hlower (.escape hesc)

theorem marked_deliverClass {named : PointSet} {members : ℤ → Prop}
    (h : Escaping limit w esc start site) (hesc : ClassEscape esc members) :
    Marked limit w (deliverClass s site named) := by
  obtain ⟨-, hsite⟩ := h
  cases site with
  | term => exact .push hgroups _
  | item inner outer =>
    obtain ⟨hclasses, -⟩ := hsite
    exact .keep hgroups rfl ⟨hclasses, trivial⟩
  | upper inner outer lower itemStart =>
    obtain ⟨-, first, v, hlower, hitem⟩ := hsite
    exact marked_rangeInvalid hitem hlower (.inr ⟨members, hesc⟩)

theorem marked_deliverCode {code : ℕ} (h : Escaping limit w esc start site)
    (hesc : ['\\', 'x'] <+: esc ∨ ['\\', 'u'] <+: esc)
    (hchar : ∀ d : Char, code = d.toNat → CharEscape esc d) :
    Marked limit w (deliverCode s start site code) := by
  unfold deliverCode
  split
  · rename_i d hd
    have hcode : (code : ℤ) = Point.ofChar d := (Point.ofChar_of_char? hd).symm
    exact marked_deliverChar hgroups h (hchar d (Int.ofNat_inj.1 hcode))
  · exact marked_hexInvalid h hesc

end Deliver

include hgroups

theorem marked_stepEscape (h : Escaping limit w ['\\'] start site) :
    Marked limit (w ++ [c]) (stepEscape s start site c) := by
  have hgroups' : AllHoldAt (w ++ [c]) s.groupStarts '(' := hgroups.snoc c
  have hread := h.snoc c
  unfold stepEscape
  split_ifs with hx hu
  · subst hx
    exact .stay hgroups rfl ⟨'x', [], .nil, by decide, by decide, hread⟩
  · subst hu
    exact .stay hgroups rfl hread
  · split
    · rename_i named _ hnamed
      obtain ⟨members, hm⟩ := exists_classEscape hnamed
      exact marked_deliverClass hgroups' hread hm
    · rename_i d _ hd
      exact marked_deliverChar hgroups' hread (charEscape_of_charEscape? hd)
    · exact .back hread.1 fun _ rest => List.prefix_append _ rest

theorem marked_stepHexFixed {missing value : ℕ} {l : Char} {ds : List Char} (hds : IsHex ds value)
    (hmissing : 0 < missing) (hl : (l, ds.length + missing) ∈ fixedLengths)
    (h : Escaping limit w ('\\' :: l :: ds) start site) :
    Marked limit (w ++ [c]) (stepHexFixed s start site missing value c) := by
  have hread : Escaping limit (w ++ [c]) ('\\' :: l :: (ds ++ [c])) start site := h.snoc c
  have hletter := prefix_of_fixedLengths hl (ds ++ [c])
  unfold stepHexFixed
  split
  case h_1 => exact marked_hexInvalid hread hletter
  case h_2 d hd =>
    have hsnoc : IsHex (ds ++ [c]) (value * 16 + d) := .snoc hds hd
    have hlength : (ds ++ [c]).length = ds.length + 1 := List.length_append
    dsimp only
    split
    case isTrue hlast =>
      refine marked_deliverCode (hgroups.snoc c) hread hletter fun e he => ?_
      have htotal : (l, (ds ++ [c]).length) ∈ fixedLengths := by
        rwa [hlength, show 1 = missing by omega]
      exact charEscape_of_fixedLengths htotal (he ▸ hsnoc)
    case isFalse hmore =>
      refine .stay hgroups rfl ⟨l, ds ++ [c], hsnoc, by omega, ?_, hread⟩
      rwa [hlength, show ds.length + 1 + (missing - 1) = ds.length + missing by omega]

theorem marked_stepHexHead (h : Escaping limit w ['\\', 'u'] start site) :
    Marked limit (w ++ [c]) (stepHexHead s start site c) := by
  unfold stepHexHead
  split
  case isTrue hc =>
    subst hc
    exact .stay hgroups rfl ⟨[], .nil, rfl, by decide, h.snoc _⟩
  case isFalse => exact marked_stepHexFixed hgroups .nil (by decide) (by decide) h

theorem marked_stepHexBraced {value : ℕ} {ds : List Char} (hds : IsHex ds value)
    (hlength : ds.length ≤ 6) (h : Escaping limit w ('\\' :: 'u' :: '\x7b' :: ds) start site) :
    Marked limit (w ++ [c]) (stepHexBraced s start site ds.length value c) := by
  have hread : Escaping limit (w ++ [c]) ('\\' :: 'u' :: '\x7b' :: (ds ++ [c])) start site :=
    h.snoc c
  have hletter : ['\\', 'u'] <+: '\\' :: 'u' :: '\x7b' :: (ds ++ [c]) := List.prefix_append _ _
  unfold stepHexBraced
  split
  case h_1 d hd =>
    split
    case isTrue hlt =>
      refine .stay hgroups rfl ⟨ds ++ [c], .snoc hds hd, ?_, hlt, hread⟩
      rw [List.length_append, List.length_singleton]
    case isFalse => exact marked_hexInvalid hread (.inr hletter)
  case h_2 =>
    split
    case isTrue hc =>
      obtain ⟨rfl, hpos⟩ := hc
      refine marked_deliverCode (hgroups.snoc _) hread (.inr hletter) fun e he => ?_
      exact .braces (he ▸ hds) hpos hlength
    case isFalse => exact marked_hexInvalid hread (.inr hletter)

end Escapes

end PatternAutomata.Parser
