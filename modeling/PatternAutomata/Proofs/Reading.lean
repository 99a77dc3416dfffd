import PatternAutomata.Proofs.CanonicalSets
import PatternAutomata.Proofs.Trees

/-!
Every pattern of the grammar is read as its tree. The lemmas on unions, concatenations, repetitions
and terms follow the grammar of trees; each says what becomes of the union under construction
(`Reads`).
-/

set_option autoImplicit false

namespace PatternAutomata.Parser

open Grammar

variable {limit : ℕ}

section Quantifiers

variable {s : State} {start m n : ℕ} {ds q : List Char} {k : Node}

/-- The digits of a count are read one by one; `f` says what has been read of it. -/
theorem arrives_numeral (limit : ℕ) (h : IsNumeral 10 Digits.decimalValue? ds n) (hn : n < 2 ^ 32)
    (f : Option ℕ → Count)
    (hf : ∀ s start v c d, Digits.decimalValue? c = some d →
      stepCount s start (f v) c = appendDigit s start (v.getD 0) d fun v => f (some v))
    (s : State) (start o : ℕ) :
    Arrives limit ((s.inMode (.count start (f none))).at o) ds
      (s.inMode (.count start (f (if ds = [] then none else some n)))) := by
  induction h with
  | nil => exact .refl _
  | @snoc ds v d c hv hc ih =>
    apply (ih (by omega)).snoc
    intro o
    have hvalue : (if ds = [] then none else some v).getD 0 = v := by
      split
      · rename_i hds
        subst hds
        generalize hw : ([] : List Char) = w at hv
        cases hv with
        | nil => rfl
        | snoc _ _ => simp at hw
      · rfl
    change stepCount _ start (f (if ds = [] then none else some v)) c = _
    rw [hf _ _ _ _ _ hc, appendDigit, hvalue]
    simp only [(lt_iff_le_countMax _).1 hn, if_true, List.append_eq_nil_iff, List.cons_ne_nil,
      and_false, if_false]
    rfl

theorem arrives_min (h : IsCount ds n) (s : State) (o : ℕ) :
    Arrives limit ((s.inMode (.count start (.min none))).at o) ds
      (s.inMode (.count start (.min (some n)))) := by
  obtain ⟨hne, h, hn⟩ := h
  have hread := arrives_numeral limit h hn .min (fun s start v c d hc => ?_) s start o
  · rwa [if_neg hne] at hread
  · simp only [stepCount, hc]

theorem arrives_max (h : IsCount ds n) (s : State) (o : ℕ) :
    Arrives limit ((s.inMode (.count start (.comma m))).at o) ds
      (s.inMode (.count start (.max m n))) := by
  obtain ⟨hne, h, hn⟩ := h
  have hread := arrives_numeral limit h hn
    (fun v => v.elim (.comma m) (.max m))
    (fun s start v c d hc => ?_) s start o
  · rwa [if_neg hne] at hread
  · cases v <;> (simp only [stepCount, hc]; rfl)

def State.withPending (s : State) (p : Pending) : State :=
  { s with branch := { s.branch with pending := p }, mode := .union }

theorem finishCount_eq (hk : s.branch.pending.node? = some k) {max : Option ℕ}
    (hmax : ∀ x, max = some x → m ≤ x) (mode : Mode) (o : ℕ) :
    finishCount ((s.inMode mode).at o) start m max =
      .ok ((s.withPending (.quantified k m max)).at o) := by
  have hk' : ((s.inMode mode).at o).branch.pending.node? = some k := hk
  unfold finishCount
  rw [hk']
  cases max with
  | none => rfl
  | some x => exact if_neg (not_lt.2 (hmax x rfl))

theorem stepQuantifier_of_node? (hk : s.branch.pending.node? = some k) :
    stepQuantifier s '*' = .ok { s with branch.pending := .quantified k 0 none } ∧
      stepQuantifier s '+' = .ok { s with branch.pending := .quantified k 1 none } ∧
      stepQuantifier s '\x7b' = .ok (s.inMode (.count s.offset (.min none))) := by
  unfold stepQuantifier
  cases hp : s.branch.pending with
  | none =>
    rw [hp] at hk
    cases hk
  | term n =>
    rw [hp] at hk
    cases hk
    exact ⟨rfl, rfl, rfl⟩
  | quantified n min max =>
    rw [hp] at hk
    cases hk
    exact ⟨rfl, rfl, rfl⟩

theorem stepQuantifier_none {c : Char} (hk : s.branch.pending.node? = none) :
    stepQuantifier s c = fail .repetitionMissing s.offset := by
  unfold stepQuantifier
  cases hp : s.branch.pending with
  | none => rfl
  | term n =>
    rw [hp] at hk
    cases hk
  | quantified n min max =>
    rw [hp] at hk
    cases hk

theorem stepQuantifier_option (hp : s.branch.pending = .term k) :
    stepQuantifier s '?' = .ok { s with branch.pending := .quantified k 0 (some 1) } := by
  unfold stepQuantifier
  rw [hp]
  rfl

theorem stepQuantifier_mark {max : Option ℕ} (hp : s.branch.pending = .quantified k m max) :
    stepQuantifier s '?' = .ok { s with branch.pending := .term (.repeated k m max true) } := by
  unfold stepQuantifier
  rw [hp]
  rfl

theorem arrives_quantifier (limit : ℕ) {max : Option ℕ} (h : Quantifier q m max)
    (hmode : s.mode = .union) (hk : s.branch.pending.node? = some k)
    (hq : q = ['?'] → s.branch.pending = .term k) :
    Arrives limit s q (s.withPending (.quantified k m max)) := by
  have hstep : ∀ c, stepMode limit s c = stepUnion limit s c := by
    intro c
    rw [stepMode, hmode]
  have hset : ∀ p, { s with branch.pending := p } = (s.withPending p).at s.offset := by
    intro p
    rw [State.withPending, ← hmode]
    rfl
  obtain ⟨hstar, hplus, hbrace⟩ := stepQuantifier_of_node? hk
  have counted : ∀ w, (∀ o, Arrives limit ((s.inMode (.count s.offset (.min none))).at o) w
      (s.withPending (.quantified k m max))) →
        Arrives limit s ('\x7b' :: w) (s.withPending (.quantified k m max)) := by
    intro w hw
    exact .cons (o := s.offset) (t := s.inMode (.count s.offset (.min none)))
      ((hstep _).trans hbrace) hw
  cases h with
  | star => exact .one (o := s.offset) ((hstep _).trans (hstar.trans (congrArg _ (hset _))))
  | plus => exact .one (o := s.offset) ((hstep _).trans (hplus.trans (congrArg _ (hset _))))
  | option =>
    apply Arrives.one (o := s.offset)
    rw [hstep, ← hset]
    exact stepQuantifier_option (hq rfl)
  | exactly h =>
    apply counted
    intro o
    apply (arrives_min h s o).snoc
    intro o
    exact finishCount_eq hk (by simp) _ o
  | atLeast h =>
    apply counted
    intro o
    apply (arrives_min h s o).append
    intro o
    apply Arrives.cons (o := o) (t := s.inMode (.count s.offset (.comma m))) rfl
    intro o
    exact .one (finishCount_eq hk (by simp) _ o)
  | @bounded ds es _ n hm hn hle =>
    apply counted
    intro o
    apply (arrives_min hm s o).append
    intro o
    apply Arrives.cons (o := o) (t := s.inMode (.count s.offset (.comma m))) rfl
    intro o
    apply (arrives_max hn s o).snoc
    intro o
    exact finishCount_eq hk (by simpa using hle) _ o

end Quantifiers

section Unions

variable {s t u : State} {w v : List Char} {ids more : List GroupId} {depth next : ℕ} {c : Char}

/-- Reading `w` leads from one place in a union to another place at the same depth, by way of the
groups `ids`. -/
structure Reads (limit : ℕ) (s : State) (w : List Char) (ids : List GroupId) (t : State) :
    Prop where
  run : run limit s w = .ok t
  mode : t.mode = .union
  depth : t.depth = s.depth
  groups : t.groups = s.groups
  names : t.names = (ids.filterMap GroupId.name?).reverse ++ s.names
  nextGroup : t.nextGroup = s.nextGroup + ids.length

namespace Reads

theorem refl (h : s.mode = .union) : Reads limit s [] [] s := ⟨rfl, h, rfl, rfl, rfl, rfl⟩

theorem trans (h : Reads limit s w ids t) (hv : Reads limit t v more u) :
    Reads limit s (w ++ v) (ids ++ more) u where
  run := (run_append_of_ok h.run v).trans hv.run
  mode := hv.mode
  depth := hv.depth.trans h.depth
  groups := hv.groups.trans h.groups
  names := by
    rw [hv.names, h.names, List.filterMap_append, List.reverse_append, List.append_assoc]
  nextGroup := by rw [hv.nextGroup, h.nextGroup, List.length_append, Nat.add_assoc]

theorem trans_nil (h : Reads limit s w ids t) (hv : Reads limit t v [] u) :
    Reads limit s (w ++ v) ids u := by
  have := h.trans hv
  rwa [List.append_nil] at this

theorem of_arrives (h : Arrives limit s w t) (hm : t.mode = .union) (hd : t.depth = s.depth)
    (hg : t.groups = s.groups) (hn : t.names = s.names) (hk : t.nextGroup = s.nextGroup) :
    ∃ o, Reads limit s w [] (t.at o) := by
  obtain ⟨o, h⟩ := h
  exact ⟨o, h, hm, hd, hg, hn, hk⟩

end Reads

theorem stepMode_union (h : s.mode = .union) (c : Char) :
    stepMode limit s c = stepUnion limit s c := by
  rw [stepMode, h]

theorem run_one (h : stepMode limit s c = .ok t) :
    run limit s [c] = .ok (t.at (s.offset + c.utf8Size)) := by
  rw [run_cons, step, h]
  rfl

theorem stepUnion_of_not_mem_reserved (h : c ∉ reserved) (s : State) :
    stepUnion limit s c = .ok (s.push (.text [c])) := by
  simp only [reserved, List.mem_cons, List.not_mem_nil, or_false, not_or] at h
  unfold stepUnion
  split <;> simp_all

structure Entered (s : State) (id : Option GroupId) (t : State) : Prop where
  mode : t.mode = .union
  depth : t.depth = s.depth + 1
  groups : ∃ start, t.groups = ⟨start, id, s.branch⟩ :: s.groups
  branch : t.branch = .new
  names : t.names = (id.toList.filterMap GroupId.name?).reverse ++ s.names
  nextGroup : t.nextGroup = s.nextGroup + id.toList.length

def State.enterNumbered (s : State) (start : ℕ) : State :=
  { s with nextGroup := s.nextGroup + 1 }.enterGroup start (some (.index s.nextGroup))

def State.enterNamed (s : State) (start : ℕ) (name : String) : State :=
  { s with nextGroup := s.nextGroup + 1, names := name :: s.names }.enterGroup start
    (some (.name name))

theorem arrives_letters (h : ∀ c ∈ w, IsNameChar c) (s : State)
    (start nameStart : ℕ) (letters : List Char) (o : ℕ) :
    Arrives limit ((s.inMode (.groupName start nameStart letters)).at o) w
      (s.inMode (.groupName start nameStart (w.reverse ++ letters))) := by
  induction w generalizing letters o with
  | nil => exact .refl _
  | cons c w ih =>
    obtain ⟨hc, hw⟩ := List.forall_mem_cons.1 h
    rw [List.reverse_cons, List.append_assoc]
    apply Arrives.cons (o := o) (t := s.inMode (.groupName start nameStart (c :: letters)))
    · exact if_pos ((isNameChar_iff c).2 hc)
    · exact ih hw (c :: letters)

theorem arrives_name {name : String} (h : IsName name) (hf : name ∉ s.names)
    (start nameStart o : ℕ) :
    Arrives limit ((s.inMode (.groupName start nameStart [])).at o) (name.toList ++ ['>'])
      (s.enterNamed start name) := by
  obtain ⟨hne, hchars⟩ := h
  apply (arrives_letters hchars s start nameStart [] o).snoc
  intro o
  have hletters : (name.toList.reverse ++ []).isEmpty = false := by simpa using hne
  have hname : String.ofList (name.toList.reverse ++ []).reverse = name := by simp
  have hfresh : s.names.contains name = false := by simpa using hf
  change stepGroupName _ start nameStart (name.toList.reverse ++ []) '>' = _
  rw [stepGroupName, if_neg (by decide), if_neg (by simp), hletters, hname]
  change (if s.names.contains name = true then _ else _) = _
  rw [hfresh]
  rfl

theorem reads_opening {id : Option GroupId} (h : Opening next w id) (hm : s.mode = .union)
    (hnext : s.nextGroup = next) (hd : s.depth < limit)
    (hf : ((id.toList.filterMap GroupId.name?).reverse ++ s.names).Nodup) :
    ∃ t, Entered s id t ∧
      ∀ v, v ≠ [] → v.head? ≠ some '?' → run limit s (w ++ v) = run limit t v := by
  subst hnext
  have hopen :
      stepMode limit s '(' = .ok ((s.deeper.inMode (.groupHead s.offset)).at s.offset) := by
    rw [stepMode, hm]
    exact if_neg (not_le.2 hd)
  have enter : ∀ w t, (∀ o, Arrives limit ((s.deeper.inMode (.groupHead s.offset)).at o) w t) →
      Entered s id t → ∃ t, Entered s id t ∧
      ∀ v, v ≠ [] → v.head? ≠ some '?' → run limit s ('(' :: w ++ v) = run limit t v := by
    intro w t hw ht
    obtain ⟨o, ho⟩ := (Arrives.cons (o := s.offset) hopen hw).run_append
    exact ⟨t.at o, ⟨ht.mode, ht.depth, ht.groups, ht.branch, ht.names, ht.nextGroup⟩,
      fun v _ _ => ho v⟩
  cases h with
  | numbered =>
    obtain ⟨o, ho⟩ := (Arrives.one (o := s.offset) hopen).run_append
    refine ⟨(s.deeper.enterNumbered s.offset).at o, ⟨rfl, rfl, ⟨_, rfl⟩, rfl, rfl, rfl⟩,
      fun v hv hq => ?_⟩
    rw [ho]
    match v with
    | [] => exact absurd rfl hv
    | c :: v =>
      have hc : c ≠ '?' := by
        rintro rfl
        exact hq rfl
      rw [run_cons, run_cons, step, step]
      change Except.map _ (stepGroupHead limit _ s.offset c) >>= _ = _
      rw [stepGroupHead, if_neg hc]
      rfl
  | plain =>
    exact enter ['?', ':'] (s.deeper.enterGroup s.offset none)
      (fun o => .cons (o := o) (t := s.deeper.inMode (.groupFlag s.offset)) rfl fun o =>
        .one (o := o) rfl) ⟨rfl, rfl, ⟨_, rfl⟩, rfl, rfl, rfl⟩
  | @named name h =>
    have hfresh := (List.nodup_cons.1 hf).1
    apply enter _ (s.deeper.enterNamed s.offset name) (fun o => ?_)
      ⟨rfl, rfl, ⟨_, rfl⟩, rfl, rfl, rfl⟩
    apply Arrives.cons (o := o) (t := s.deeper.inMode (.groupFlag s.offset)) rfl
    intro o
    apply Arrives.cons (o := o) (t := s.deeper.inMode (.groupName s.offset (o + 1) [])) rfl
    exact arrives_name (s := s.deeper) h hfresh s.offset (o + 1)
  | @lettered name h =>
    have hfresh := (List.nodup_cons.1 hf).1
    apply enter _ (s.deeper.enterNamed s.offset name) (fun o => ?_)
      ⟨rfl, rfl, ⟨_, rfl⟩, rfl, rfl, rfl⟩
    apply Arrives.cons (o := o) (t := s.deeper.inMode (.groupFlag s.offset)) rfl
    intro o
    apply Arrives.cons (o := o) (t := s.deeper.inMode (.groupFlagP s.offset o)) rfl
    intro o
    apply Arrives.cons (o := o) (t := s.deeper.inMode (.groupName s.offset (o + 1) [])) rfl
    exact arrives_name (s := s.deeper) h hfresh s.offset (o + 1)

/-- A term that makes no difference but to the branch. -/
theorem reads_push {n : Node} (h : Arrives limit s w (s.push n)) :
    ∃ t, Reads limit s w [] t ∧ t.branch = s.branch.push n := by
  obtain ⟨o, h⟩ := Reads.of_arrives h rfl rfl rfl rfl rfl
  exact ⟨_, h, rfl⟩

/-- A state from which a form with these groups may be read. -/
structure Ready (limit depth next : ℕ) (s : State) (ids : List GroupId) : Prop where
  mode : s.mode = .union
  depth : s.depth + depth ≤ limit
  next : s.nextGroup = next
  fresh : ((ids.filterMap GroupId.name?).reverse ++ s.names).Nodup

theorem nodup_names_append :
    (((ids ++ more).filterMap GroupId.name?).reverse ++ s.names).Nodup ↔
      ((more.filterMap GroupId.name?).reverse ++
        ((ids.filterMap GroupId.name?).reverse ++ s.names)).Nodup := by
  rw [List.filterMap_append, List.reverse_append, List.append_assoc]

theorem Ready.left (h : Ready limit depth next s (ids ++ more)) :
    Ready limit depth next s ids where
  mode := h.mode
  depth := h.depth
  next := h.next
  fresh := (nodup_names_append.1 h.fresh).of_append_right

theorem Ready.right (h : Ready limit depth next s (ids ++ more)) (hr : Reads limit s w ids t) :
    Ready limit depth (next + ids.length) t more where
  mode := hr.mode
  depth := hr.depth ▸ h.depth
  next := by rw [hr.nextGroup, h.next]
  fresh := by
    rw [hr.names]
    exact nodup_names_append.1 h.fresh

theorem Ready.silent (h : Ready limit depth next s ids) (hr : Reads limit s w [] t) :
    Ready limit depth next t ids :=
  (show Ready limit depth next s ([] ++ ids) from h).right hr

theorem reads_quantifier {q : List Char} {k : Node} {m : ℕ} {max : Option ℕ}
    (h : Quantifier q m max) (hmode : s.mode = .union) (hk : s.branch.pending.node? = some k)
    (hq : q = ['?'] → s.branch.pending = .term k) :
    ∃ t, Reads limit s q [] t ∧ t.branch = { s.branch with pending := .quantified k m max } := by
  obtain ⟨o, h⟩ := Reads.of_arrives (arrives_quantifier limit h hmode hk hq) rfl rfl rfl rfl rfl
  exact ⟨_, h, rfl⟩

/-- A question mark makes the repetition before it reluctant. -/
theorem reads_mark {k : Node} {m : ℕ} {max : Option ℕ} (hmode : s.mode = .union)
    (hp : s.branch.pending = .quantified k m max) :
    ∃ t, Reads limit s ['?'] [] t ∧
      t.branch = { s.branch with pending := .term (.repeated k m max true) } := by
  exact ⟨_, ⟨run_one ((stepMode_union hmode '?').trans (stepQuantifier_mark hp)), hmode, rfl, rfl,
    rfl, rfl⟩, rfl⟩

theorem Entered.ready {id : Option GroupId} (h : Entered s id t)
    (hs : Ready limit (depth + 1) next s (id.toList ++ ids)) :
    Ready limit depth (next + id.toList.length) t ids := by
  refine ⟨h.mode, ?_, h.nextGroup.trans (by rw [hs.next]), ?_⟩
  · have := hs.depth
    rw [h.depth]
    omega
  · rw [h.names]
    exact nodup_names_append.1 hs.fresh

/-- Closing a group ends what was opened in it. -/
theorem Entered.close {id : Option GroupId} (h : Entered s id t) (hu : Reads limit t w ids u) :
    ∃ o, run limit u [')'] = .ok (State.at
      { u.leave with groups := s.groups, branch := s.branch.push (u.branch.close.inGroup id) }
      o) := by
  obtain ⟨start, hg⟩ := h.groups
  have hclose : closeGroup u = .ok
      { u.leave with groups := s.groups, branch := s.branch.push (u.branch.close.inGroup id) } := by
    rw [closeGroup, hu.groups, hg]
    rfl
  exact ⟨_, run_one ((stepMode_union hu.mode ')').trans hclose)⟩

theorem reads_group {id : Option GroupId} {head : List Char} (ho : Opening next head id)
    (hs : Ready limit (depth + 1) next s (id.toList ++ ids)) (hw : w.head? ≠ some '?') :
    ∃ t, Ready limit depth (next + id.toList.length) t ids ∧ t.branch = .new ∧
      ∀ u, Reads limit t w ids u → ∃ v,
        Reads limit s (head ++ (w ++ [')'])) (id.toList ++ ids) v ∧
        v.branch = s.branch.push (u.branch.close.inGroup id) := by
  have hopen : s.depth < limit := by
    have := hs.depth
    omega
  obtain ⟨t, ht, hrun⟩ := reads_opening ho hs.mode hs.next hopen hs.left.fresh
  refine ⟨t, ht.ready hs, ht.branch, fun u hu => ?_⟩
  have hhead : (w ++ [')']).head? ≠ some '?' := by
    cases w with
    | nil => simp
    | cons c w => exact hw
  obtain ⟨o, hclose⟩ := ht.close hu
  have hrun := (hrun _ (by simp) hhead).trans ((run_append_of_ok hu.run _).trans hclose)
  refine ⟨_, ⟨hrun, hu.mode, ?_, rfl, ?_, ?_⟩, rfl⟩
  · change u.depth - 1 = _
    rw [hu.depth, ht.depth, Nat.add_sub_cancel]
  · change u.names = _
    rw [hu.names, ht.names, List.filterMap_append, List.reverse_append, List.append_assoc]
  · change u.nextGroup = _
    rw [hu.nextGroup, ht.nextGroup, List.length_append, Nat.add_assoc]

theorem settledParts_of_pending {b : Branch} {n : Node} (hn : b.pending.node? = some n) :
    b.settledParts = Branch.addPart n b.parts := by
  rw [Branch.settledParts, hn]

mutual

/-- The tree of a union, whose last alternative is still open. -/
theorem reads_union {depth extra next : ℕ} {w : List Char} {n : Node} :
    UnionTree depth extra next w n → ∀ s, Ready limit depth next s n.groups → s.branch = .new →
      ∃ t, Reads limit s w n.groups t ∧ t.branch.close = n
  | .single h, s, hs, hb => by
    rw [Node.groups_ofParts] at hs ⊢
    obtain ⟨t, ht, hc, hp⟩ := reads_concat h s hs (by rw [hb]; rfl)
    refine ⟨t, ht, ?_⟩
    rw [Branch.close, hc, hp, hb]
    rfl
  | .more h hv, s, hs, hb => by
    rw [Node.groups, Node.groups_ofParts] at hs ⊢
    obtain ⟨t, ht, hn⟩ := reads_union h s hs.left hb
    have hbar : ∃ u, Reads limit t ['|'] [] u ∧ u.branch = t.branch.nextAlternative :=
      ⟨_, ⟨run_one (stepMode_union ht.mode _), ht.mode, rfl, rfl, rfl, rfl⟩, rfl⟩
    obtain ⟨u, hu, hub⟩ := hbar
    obtain ⟨v, hv, hc, hp⟩ := reads_concat hv u ((hs.right ht).silent hu) (by rw [hub]; rfl)
    refine ⟨v, ht.trans (hu.trans hv), ?_⟩
    rw [Branch.close, hc, hp, hub, ← hn]
    rfl

/-- A concatenation is a whole alternative. -/
theorem reads_concat {depth extra next : ℕ} {w : List Char} {ns : List Node} :
    ConcatTree depth extra next w ns → ∀ s, Ready limit depth next s (Node.groupsAll ns.reverse) →
      s.branch.settledParts = [] →
      ∃ t, Reads limit s w (Node.groupsAll ns.reverse) t ∧ t.branch.closed = s.branch.closed ∧
        t.branch.settledParts = ns
  | .nil, s, hs, hb => ⟨s, .refl hs.mode, rfl, hb⟩
  | .snoc h hv, s, hs, hb => by
    rw [Node.groupsAll_addPart] at hs ⊢
    obtain ⟨t, ht, hc, hns⟩ := reads_concat h s hs.left hb
    obtain ⟨u, hu, hc', hp, hn, -⟩ := reads_repetition hv t (hs.right ht)
    refine ⟨u, ht.trans hu, hc'.trans hc, ?_⟩
    rw [settledParts_of_pending hn, hp, hns]

theorem reads_repetition {depth extra next : ℕ} {bare greedy : Bool} {w : List Char} {n : Node} :
    RepetitionTree depth extra next bare greedy w n → ∀ s, Ready limit depth next s n.groups →
      ∃ t, Reads limit s w n.groups t ∧ t.branch.closed = s.branch.closed ∧
        t.branch.parts = s.branch.settledParts ∧ t.branch.pending.node? = some n ∧
        (greedy = false → t.branch.pending = .term n)
  | .term h, s, hs => by
    obtain ⟨t, ht, hb⟩ := reads_term h s hs
    refine ⟨t, ht, ?_⟩
    rw [hb]
    exact ⟨rfl, rfl, rfl, fun _ => rfl⟩
  | .start, s, hs => by
    obtain ⟨t, ht, hb⟩ := reads_push (.one (o := s.offset) (stepMode_union hs.mode '^'))
    refine ⟨t, ht, ?_⟩
    rw [hb]
    exact ⟨rfl, rfl, rfl, fun _ => rfl⟩
  | @RepetitionTree.quantified _ _ _ _ _ lazily _ _ _ _ _ h hq hb, s, hs => by
    rw [Node.groups] at hs ⊢
    obtain ⟨t, ht, hc, hp, hk, hterm⟩ := reads_repetition h s hs
    obtain ⟨u, hu, hub⟩ := reads_quantifier hq ht.mode hk fun h => hterm (by simpa [h] using hb)
    cases lazily with
    | false =>
      refine ⟨u, by simpa using ht.trans_nil hu, ?_⟩
      rw [hub]
      refine ⟨hc, hp, rfl, ?_⟩
      rintro ⟨⟩
    | true =>
      obtain ⟨v, hv, hvb⟩ := reads_mark hu.mode (congrArg Branch.pending hub)
      refine ⟨v, ht.trans_nil (hu.trans hv), ?_⟩
      rw [hvb, hub]
      exact ⟨hc, hp, rfl, fun _ => rfl⟩

theorem reads_term {depth extra next : ℕ} {w : List Char} {n : Node} :
    TermTree depth extra next w n → ∀ s, Ready limit depth next s n.groups →
      ∃ t, Reads limit s w n.groups t ∧ t.branch = s.branch.push n
  | .literal h, s, hs => by
    apply reads_push (.one (o := s.offset) ?_)
    exact (stepMode_union hs.mode _).trans (stepUnion_of_not_mem_reserved h s)
  | .any, s, hs => reads_push (.one (o := s.offset) (stepMode_union hs.mode _))
  | .stop, s, hs => reads_push (.one (o := s.offset) (stepMode_union hs.mode _))
  | .escape h, s, hs => by
    obtain ⟨v, rfl, hv⟩ := arrives_charEscape limit h
    apply reads_push (.cons (o := s.offset) (t := s.inMode (.escape s.offset .term))
      (stepMode_union hs.mode _) fun o => ?_)
    exact hv s _ _ .term o rfl
  | .classEscape h hm, s, hs => by
    obtain ⟨v, named, rfl, hnamed, hv⟩ := arrives_classEscape limit h
    obtain rfl := PointSet.ext_contains fun p => Bool.eq_iff_iff.2 ((hnamed p).trans (hm p).symm)
    apply reads_push (.cons (o := s.offset) (t := s.inMode (.escape s.offset .term))
      (stepMode_union hs.mode _) fun o => ?_)
    exact hv s _ _ .term o rfl
  | .bracketed h hm, s, hs => by
    obtain ⟨v, rfl, hpos, hv⟩ := arrives_class h s [] hs.depth
    obtain ⟨inner, ⟨o, hr⟩, hinner⟩ := hv s.offset (s.offset + '['.utf8Size)
    obtain rfl := PointSet.ext_contains fun p => Bool.eq_iff_iff.2 ((hinner p).trans (hm p).symm)
    apply reads_push ⟨o, ?_⟩
    have hlimit : ¬ limit ≤ s.depth := by
      have := hs.depth
      omega
    rw [run_cons, step, stepMode_union hs.mode]
    change Except.map _ (if limit ≤ s.depth then _ else _) >>= _ = _
    rw [if_neg hlimit]
    exact hr
  | .group ho h, s, hs => by
    rw [Node.groups_inGroup] at hs ⊢
    obtain ⟨t, ht, hb, hclose⟩ := reads_group ho hs (head_union h)
    obtain ⟨u, hu, hn⟩ := reads_union h t ht hb
    obtain ⟨v, hv, hbranch⟩ := hclose u hu
    exact ⟨v, hv, by rw [hbranch, hn]⟩

end

theorem parseChars_of_isTree {extra : ℕ} {n : Node} (h : IsTree limit extra w n) :
    parseChars limit w = .ok n := by
  obtain ⟨h, hn⟩ := h
  have hready : Ready limit limit 1 .initial n.groups := by
    refine ⟨rfl, (Nat.zero_add limit).le, rfl, ?_⟩
    rw [State.initial, List.append_nil]
    exact List.nodup_reverse.2 hn
  obtain ⟨t, ht, rfl⟩ := reads_union h .initial hready rfl
  change run limit .initial w >>= finish = _
  rw [ht.run]
  change finish t = _
  rw [finish, ht.mode, ht.groups]
  rfl

/-- A pattern of the grammar is read, and its tree has its meaning. -/
theorem exists_parseChars {l : Meaning} (h : IsPattern limit w l) :
    ∃ n, parseChars limit w = .ok n ∧ n.tagged = l := by
  obtain ⟨extra, n, ht, hl⟩ := exists_isTree h
  exact ⟨n, parseChars_of_isTree ht, hl⟩

end Unions

end PatternAutomata.Parser
