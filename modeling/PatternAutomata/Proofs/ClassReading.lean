import PatternAutomata.Proofs.Grammar

/-!
Reading the escapes and the classes of the grammar. For each form a lemma says what state the reader
is in after a word of that form. As the reader keeps places in the pattern for its messages, states
are known up to the place (`Arrives`).
-/

set_option autoImplicit false

namespace PatternAutomata.Parser

open Grammar

variable {limit : ℕ}

def run (limit : ℕ) (s : State) (w : List Char) : Outcome := w.foldlM (step limit) s

theorem run_cons (s : State) (c : Char) (w : List Char) :
    run limit s (c :: w) = step limit s c >>= fun t => run limit t w :=
  List.foldlM_cons

theorem run_append (s : State) (w v : List Char) :
    run limit s (w ++ v) = run limit s w >>= fun t => run limit t v :=
  List.foldlM_append

theorem run_append_of_ok {s t : State} {w : List Char} (h : run limit s w = .ok t)
    (v : List Char) : run limit s (w ++ v) = run limit t v := by
  rw [run_append, h]
  rfl

def State.at (s : State) (o : ℕ) : State := { s with offset := o }

def State.inMode (s : State) (m : Mode) : State := { s with mode := m }

/-- Reading `w` leads from `s` to `t`, up to the place in the pattern. -/
def Arrives (limit : ℕ) (s : State) (w : List Char) (t : State) : Prop :=
  ∃ o, run limit s w = .ok (t.at o)

namespace Arrives

variable {s t u : State} {w v : List Char} {c : Char}

theorem refl (s : State) : Arrives limit s [] s := ⟨s.offset, rfl⟩

theorem append (h : Arrives limit s w t) (hv : ∀ o, Arrives limit (t.at o) v u) :
    Arrives limit s (w ++ v) u := by
  obtain ⟨o, h⟩ := h
  obtain ⟨o', hv⟩ := hv o
  exact ⟨o', (run_append_of_ok h v).trans hv⟩

theorem one {o : ℕ} (h : stepMode limit s c = .ok (t.at o)) : Arrives limit s [c] t := by
  refine ⟨s.offset + c.utf8Size, ?_⟩
  rw [run_cons, step, h]
  rfl

theorem run_append (h : Arrives limit s w t) :
    ∃ o, ∀ v, run limit s (w ++ v) = run limit (t.at o) v := by
  obtain ⟨o, h⟩ := h
  exact ⟨o, run_append_of_ok h⟩

theorem cons {o : ℕ} (h : stepMode limit s c = .ok (t.at o))
    (hw : ∀ o, Arrives limit (t.at o) w u) : Arrives limit s (c :: w) u :=
  append (one h) hw

theorem snoc (h : Arrives limit s w t) (hc : ∀ o, stepMode limit (t.at o) c = .ok (u.at o)) :
    Arrives limit s (w ++ [c]) u :=
  h.append fun o => one (hc o)

end Arrives

section Escapes

variable {s t : State} {start missing v : ℕ} {site : EscapeSite} {c : Char} {ds w : List Char}

theorem deliverChar_at (s : State) (m : Mode) (o start : ℕ) (site : EscapeSite) (c : Char) :
    deliverChar ((s.inMode m).at o) start site c = (deliverChar s start site c).map (·.at o) := by
  cases site with
  | term => rfl
  | item _ _ => rfl
  | upper _ _ _ _ =>
    simp only [deliverChar, closeRange]
    split <;> rfl

theorem arrives_deliverChar (h : deliverChar s start site c = .ok t) {m : Mode} {o : ℕ} {d : Char}
    (hd : stepMode limit ((s.inMode m).at o) d = deliverChar ((s.inMode m).at o) start site c) :
    Arrives limit ((s.inMode m).at o) [d] t := by
  apply Arrives.one (o := o)
  rw [hd, deliverChar_at, h]
  rfl

theorem deliverCode_toNat (s : State) (start : ℕ) (site : EscapeSite) (c : Char) :
    deliverCode s start site c.toNat = deliverChar s start site c := by
  rw [deliverCode, ← Point.ofChar, Point.char?_ofChar]

theorem arrives_hexFixed (h : IsHex ds v) (hl : ds.length < missing) (s : State) (o : ℕ) :
    Arrives limit ((s.inMode (.hexFixed start site missing 0)).at o) ds
      (s.inMode (.hexFixed start site (missing - ds.length) v)) := by
  induction h with
  | nil => exact .refl _
  | @snoc ds v d c _ hc ih =>
    rw [List.length_append, List.length_singleton] at hl
    apply (ih (by omega)).snoc
    intro o
    have hm : ¬ missing - ds.length ≤ 1 := by omega
    change stepHexFixed _ start site (missing - ds.length) v c = _
    rw [stepHexFixed, hc]
    simp only [hm, if_false, List.length_append, List.length_singleton, Nat.sub_add_eq]
    rfl

theorem arrives_hex (limit : ℕ) (h : IsHex ds c.toNat) (hl : ds ≠ [])
    (ht : deliverChar s start site c = .ok t) (o : ℕ) :
    Arrives limit ((s.inMode (.hexFixed start site ds.length 0)).at o) ds t := by
  generalize hn : c.toNat = n at h
  cases h with
  | nil => exact absurd rfl hl
  | @snoc ds v d e hv hc =>
    rw [List.length_append, List.length_singleton]
    apply (arrives_hexFixed hv (Nat.lt_succ_self _) s o).append
    intro o
    apply arrives_deliverChar ht
    change stepHexFixed _ start site (ds.length + 1 - ds.length) v e = _
    have hone : ds.length + 1 - ds.length = 1 := by omega
    rw [stepHexFixed, hc, hone]
    simp only [le_refl, if_true, ← hn, deliverCode_toNat]

theorem arrives_hexHead (h : IsHex ds c.toNat) (hl : ds.length = 4)
    (ht : deliverChar s start site c = .ok t) (o : ℕ) :
    Arrives limit ((s.inMode (.hexHead start site)).at o) ds t := by
  cases ds with
  | nil => cases hl
  | cons d ds =>
    have hd := isSome_of_isNumeral h List.mem_cons_self
    have hbrace : d ≠ '\x7b' := by
      rintro rfl
      contradiction
    obtain ⟨o', ho⟩ := arrives_hex limit h (List.cons_ne_nil d ds) ht o
    refine ⟨o', ?_⟩
    rw [← ho, hl, run_cons, run_cons, step, step]
    -- Without a brace, the first digit is read as the first of four.
    change Except.map _ (stepHexHead _ start site d) >>= _ =
      Except.map _ (stepHexFixed _ start site 4 0 d) >>= _
    obtain ⟨e, he⟩ := Option.isSome_iff_exists.1 hd
    rw [stepHexHead, if_neg hbrace, stepHexFixed, stepHexFixed, he]
    rfl

theorem arrives_hexBraced (h : IsHex ds v) (hl : ds.length ≤ 6) (s : State) (o : ℕ) :
    Arrives limit ((s.inMode (.hexBraced start site 0 0)).at o) ds
      (s.inMode (.hexBraced start site ds.length v)) := by
  induction h with
  | nil => exact .refl _
  | @snoc ds v d c _ hc ih =>
    rw [List.length_append, List.length_singleton] at hl
    apply (ih (by omega)).snoc
    intro o
    have hm : ds.length < 6 := by omega
    change stepHexBraced _ start site ds.length v c = _
    rw [stepHexBraced, hc]
    simp only [hm, if_true, List.length_append, List.length_singleton]
    rfl

def Names (d c : Char) : Prop :=
  d ≠ 'x' ∧ d ≠ 'u' ∧ classEscape? d = none ∧ charEscape? d = some c

theorem names_of_mem_controls : ∀ x ∈ controls, Names x.1 x.2 := by
  unfold Names
  decide

theorem names_of_mem_signs : ∀ d ∈ signs, Names d d := by
  rw [← List.forall_iff_forall_mem]
  unfold Names
  decide

theorem arrives_names {d : Char} (h : Names d c) (ht : deliverChar s start site c = .ok t)
    (o : ℕ) : Arrives limit ((s.inMode (.escape start site)).at o) [d] t := by
  obtain ⟨hx, hu, hs, hc⟩ := h
  apply arrives_deliverChar ht
  change stepEscape _ start site d = _
  rw [stepEscape, if_neg hx, if_neg hu, hs, hc]

theorem arrives_charEscape (limit : ℕ) (h : CharEscape w c) :
    ∃ v, w = '\\' :: v ∧ ∀ (s t : State) (start : ℕ) (site : EscapeSite) (o : ℕ),
      deliverChar s start site c = .ok t →
        Arrives limit ((s.inMode (.escape start site)).at o) v t := by
  cases h with
  | @control d _ h =>
    exact ⟨[d], rfl, fun s t start site o ht => arrives_names (names_of_mem_controls _ h) ht o⟩
  | itself h =>
    exact ⟨[c], rfl, fun s t start site o ht => arrives_names (names_of_mem_signs c h) ht o⟩
  | @twoDigits ds _ h hl =>
    refine ⟨'x' :: ds, rfl, fun s t start site o ht => ?_⟩
    apply Arrives.cons (o := o) (t := s.inMode (.hexFixed start site ds.length 0)) (hl ▸ rfl)
    exact arrives_hex limit h (by rintro rfl; cases hl) ht
  | @fourDigits ds _ h hl =>
    refine ⟨'u' :: ds, rfl, fun s t start site o ht => ?_⟩
    exact Arrives.cons (o := o) (t := s.inMode (.hexHead start site)) rfl (arrives_hexHead h hl ht)
  | @braces ds _ h hl hu =>
    refine ⟨'u' :: '\x7b' :: (ds ++ ['\x7d']), rfl, fun s t start site o ht => ?_⟩
    apply Arrives.cons (o := o) (t := s.inMode (.hexHead start site)) rfl
    intro o
    apply Arrives.cons (o := o) (t := s.inMode (.hexBraced start site 0 0)) rfl
    intro o
    apply (arrives_hexBraced h hu s o).append
    intro o
    apply arrives_deliverChar ht
    have hnone : Digits.hexValue? '\x7d' = none := by decide
    change stepHexBraced _ start site ds.length c.toNat '\x7d' = _
    rw [stepHexBraced, hnone]
    exact (if_pos ⟨rfl, hl⟩).trans (deliverCode_toNat _ _ _ _)

theorem deliverClass_at (s : State) (m : Mode) (o : ℕ) (site : EscapeSite) (members : PointSet) :
    deliverClass ((s.inMode m).at o) site members =
      (deliverClass s site members).map (·.at o) := by
  cases site <;> rfl

theorem arrives_classEscape (limit : ℕ) {members : ℤ → Prop} (h : ClassEscape w members) :
    ∃ v named, w = '\\' :: v ∧ (∀ p, named.contains p = true ↔ members p) ∧
      ∀ (s t : State) (start : ℕ) (site : EscapeSite) (o : ℕ),
        deliverClass s site named = .ok t →
          Arrives limit ((s.inMode (.escape start site)).at o) v t := by
  have read : ∀ d named, d ≠ 'x' → d ≠ 'u' → classEscape? d = some named →
      ∀ (s t : State) (start : ℕ) (site : EscapeSite) (o : ℕ),
        deliverClass s site named = .ok t →
          Arrives limit ((s.inMode (.escape start site)).at o) [d] t := by
    intro d named hx hu hd s t start site o ht
    apply Arrives.one (o := o)
    change stepEscape _ start site d = _
    rw [stepEscape, if_neg hx, if_neg hu, hd]
    exact (deliverClass_at s _ o site named).trans (congrArg (Except.map (·.at o)) ht)
  cases h with
  | digit =>
    exact ⟨['d'], _, rfl, contains_decimalDigits, read 'd' _ (by decide) (by decide) rfl⟩
  | notDigit =>
    exact ⟨['D'], _, rfl, contains_complement contains_decimalDigits (by decide),
      read 'D' _ (by decide) (by decide) rfl⟩
  | blank => exact ⟨['s'], _, rfl, contains_blanks, read 's' _ (by decide) (by decide) rfl⟩
  | notBlank =>
    exact ⟨['S'], _, rfl, contains_complement contains_blanks (by decide),
      read 'S' _ (by decide) (by decide) rfl⟩
  | word => exact ⟨['w'], _, rfl, contains_wordChars, read 'w' _ (by decide) (by decide) rfl⟩
  | notWord =>
    exact ⟨['W'], _, rfl, contains_complement contains_wordChars (by decide),
      read 'W' _ (by decide) (by decide) rfl⟩

end Escapes

section Classes

variable {s : State} {inner : OpenClass} {outer : List OpenClass} {depth start : ℕ} {first : Bool}
  {w rest : List Char} {c lower : Char} {members : ℤ → Prop}

def placeOf (first : Bool) : ClassPlace := if first then .first else .items

theorem stepClass_placeOf (s : State) (inner : OpenClass) (outer : List OpenClass) (first : Bool)
    (c : Char) :
    stepClass limit s inner outer (placeOf first) c = stepItem limit s inner outer first c := by
  cases first <;> rfl

theorem arrives_lowerChar (limit : ℕ) (h : LowerChar first w c) (s : State) (inner : OpenClass)
    (outer : List OpenClass) (o : ℕ) :
    ∃ start, Arrives limit ((s.inMode (.inClass inner outer (placeOf first))).at o) w
      (s.inMode (.inClass inner outer (.lower c start))) := by
  cases h with
  | plain h =>
    simp only [List.mem_cons, List.not_mem_nil, or_false, not_or] at h
    obtain ⟨h1, h2, h3⟩ := h
    refine ⟨o, .one (o := o) ?_⟩
    change stepClass limit _ inner outer (placeOf first) c = _
    simp only [stepClass_placeOf, stepItem, h1, h2, h3, false_and, if_false]
    rfl
  | bracket h =>
    subst h
    exact ⟨o, .one (o := o) rfl⟩
  | escape h =>
    obtain ⟨v, rfl, hv⟩ := arrives_charEscape limit h
    refine ⟨o, .cons (o := o) (t := s.inMode (.escape o (.item inner outer))) ?_ fun o' => ?_⟩
    · cases first <;> rfl
    · exact hv s _ o (.item inner outer) o' rfl

theorem arrives_upperChar (h : UpperChar w c) (hl : lower ≤ c) (s : State) (inner : OpenClass)
    (outer : List OpenClass) (start o : ℕ) :
    Arrives limit ((s.inMode (.inClass inner outer (.hyphen lower start))).at o) w
      (s.inMode (.inClass (inner.unite (.ofSpan (.ofChars lower c))) outer .items)) := by
  have hlt : ¬ c < lower := Char.not_lt.2 hl
  cases h with
  | plain h =>
    simp only [List.mem_cons, List.not_mem_nil, or_false, not_or] at h
    obtain ⟨h1, h2⟩ := h
    apply Arrives.one (o := o)
    change stepClass limit _ inner outer (.hyphen lower start) c = _
    simp only [stepClass, h1, h2, closeRange, hlt, if_false]
    rfl
  | escape h =>
    obtain ⟨v, rfl, hv⟩ := arrives_charEscape limit h
    apply Arrives.cons (o := o) (t := s.inMode (.escape o (.upper inner outer lower start))) rfl
    intro o'
    apply hv s _ o (.upper inner outer lower start) o'
    simp only [deliverChar, closeRange, hlt, if_false]
    rfl

theorem closeClass_at (s : State) (m : Mode) (o : ℕ) (inner : OpenClass)
    (outer : List OpenClass) :
    closeClass ((s.inMode m).at o) inner outer = (closeClass s inner outer).at o := by
  cases outer <;> rfl

theorem stepItem_at (s : State) (m : Mode) (o : ℕ) (inner : OpenClass) (outer : List OpenClass)
    (first : Bool) (c : Char) :
    stepItem limit ((s.inMode m).at o) inner outer first c =
      stepItem limit (s.at o) inner outer first c := by
  unfold stepItem
  split
  · cases outer <;> rfl
  · rfl

/-- Unless a range follows, a character is an item by itself. -/
theorem run_lower (hr : NoRange rest) (hn : rest ≠ []) (hh : rest ≠ ['-']) (s : State) (o : ℕ) :
    run limit ((s.inMode (.inClass inner outer (.lower c start))).at o) rest =
      run limit ((s.inMode (.inClass (inner.unite (.single c)) outer .items)).at o) rest := by
  match rest with
  | [] => exact absurd rfl hn
  | d :: ds =>
    by_cases hd : d = '-'
    · subst hd
      match ds with
      | [] => exact absurd rfl hh
      | e :: es =>
        obtain rfl := hr e es rfl
        rfl
    · rw [run_cons, run_cons, step, step]
      change Except.map _ (stepClass limit _ inner outer (.lower c start) d) >>= _ =
        Except.map _ (stepClass limit _ (inner.unite (.single c)) outer .items d) >>= _
      rw [stepClass, stepClass, if_neg hd, stepItem_at, stepItem_at]
      rfl

theorem run_head (hw : w.head? ≠ some '^') (hn : w ≠ []) (s : State) (o : ℕ) :
    run limit ((s.inMode (.inClass inner outer .head)).at o) w =
      run limit ((s.inMode (.inClass inner outer .first)).at o) w := by
  match w with
  | [] => exact absurd rfl hn
  | c :: cs =>
    have hc : c ≠ '^' := by
      rintro rfl
      exact hw rfl
    rw [run_cons, run_cons, step, step]
    change Except.map _ (stepClass limit _ inner outer .head c) >>= _ =
      Except.map _ (stepClass limit _ inner outer .first c) >>= _
    rw [stepClass, stepClass, if_neg hc, stepItem_at, stepItem_at]
    rfl

theorem contains_value {negated : Bool} (hn : inner.negated = negated)
    (h : ∀ p, inner.members.contains p = true ↔ members p)
    (hc : ∀ p, members p → IsCodePoint p) (p : ℤ) :
    inner.value.contains p = true ↔ classValue negated members p := by
  subst hn
  rw [OpenClass.value, classValue]
  split
  · apply contains_complement h
    rw [← Bool.not_eq_true, h]
    intro he
    exact absurd (hc _ he).1 (by decide)
  · exact contains_settled h p

theorem contains_unite (inner : OpenClass) (named : PointSet) (p : ℤ) :
    (inner.unite named).members.contains p = true ↔
      named.contains p = true ∨ inner.members.contains p = true := by
  rw [OpenClass.unite, PointSet.contains_unite, Bool.or_eq_true]

mutual

/-- A class is closed after its closing bracket, and has its members. -/
theorem arrives_class {depth : ℕ} {w : List Char} {members : ℤ → Prop} :
    IsClass depth w members → ∀ (s : State) (outer : List OpenClass),
      s.depth + depth ≤ limit →
        ∃ v, w = '[' :: v ∧ 0 < depth ∧ ∀ start o, ∃ inner : OpenClass,
          Arrives limit ((s.deeper.inMode (.inClass ⟨start, false, .empty⟩ outer .head)).at o) v
            (closeClass s.deeper inner outer) ∧
          ∀ p, inner.value.contains p = true ↔ members p
  | .mk (w := w) hh hw hb, s, outer, hd => by
    have hcode := isCodePoint_of_classBody hb
    have body := fun negated start o =>
      arrives_classBody hb s.deeper ⟨start, negated, .empty⟩ outer o
        (by simp only [State.deeper]; omega)
    simp only [PointSet.contains_empty, Bool.false_eq_true, false_or] at body
    cases hh with
    | plain =>
      refine ⟨w, rfl, Nat.succ_pos _, fun start o => ?_⟩
      obtain ⟨last, ⟨o', hr⟩, hn, hm⟩ := body false start o
      refine ⟨last, ⟨o', ?_⟩, contains_value hn hm hcode⟩
      rw [run_head (hw rfl) (by rintro rfl; cases getLast?_classBody hb)]
      exact hr
    | negated =>
      refine ⟨'^' :: w, rfl, Nat.succ_pos _, fun start o => ?_⟩
      obtain ⟨last, ⟨o', hr⟩, hn, hm⟩ := body true start (o + '^'.utf8Size)
      exact ⟨last, ⟨o', (run_cons _ _ _).trans hr⟩, contains_value hn hm hcode⟩

theorem arrives_classBody {depth : ℕ} {first : Bool} {w : List Char} {members : ℤ → Prop} :
    ClassBody depth first w members → ∀ (s : State) (inner : OpenClass) (outer : List OpenClass)
      (o : ℕ), s.depth + depth ≤ limit →
        ∃ last : OpenClass,
          Arrives limit ((s.inMode (.inClass inner outer (placeOf first))).at o) w
            (closeClass s last outer) ∧
          last.negated = inner.negated ∧
          ∀ p, last.members.contains p = true ↔ inner.members.contains p = true ∨ members p
  | .close, s, inner, outer, o, _ => by
    refine ⟨inner, .one (o := o) ?_, rfl, by simp⟩
    exact congrArg Except.ok (closeClass_at s _ o inner outer)
  | .single (c := c) h hr hb, s, inner, outer, o, hd => by
    obtain ⟨start, hs⟩ := arrives_lowerChar limit h s inner outer o
    obtain ⟨o', hs⟩ := hs.run_append
    obtain ⟨last, ⟨o'', hl⟩, hn, hm⟩ :=
      arrives_classBody hb s (inner.unite (.single c)) outer o' hd
    have hlast := getLast?_classBody hb
    refine ⟨last, ⟨o'', ?_⟩, hn, fun p => ?_⟩
    · rw [hs, run_lower hr (by rintro rfl; cases hlast) (by rintro rfl; cases hlast)]
      exact hl
    · rw [hm, contains_unite, PointSet.contains_single]
      tauto
  | .range (w := w) (v := v) (c := c) (d := d) hc hu hcd hb, s, inner, outer, o, hd => by
    obtain ⟨start, hs⟩ := arrives_lowerChar limit hc s inner outer o
    have hrange : Arrives limit ((s.inMode (.inClass inner outer (placeOf first))).at o)
        (w ++ '-' :: v) (s.inMode (.inClass (inner.unite (.ofSpan (.ofChars c d))) outer .items)) :=
      hs.append fun o' => .cons (o := o') rfl (arrives_upperChar hu hcd s inner outer start)
    obtain ⟨o', hs⟩ := hrange.run_append
    obtain ⟨last, ⟨o'', hl⟩, hn, hm⟩ :=
      arrives_classBody hb s (inner.unite (.ofSpan (.ofChars c d))) outer o' hd
    refine ⟨last, ⟨o'', ?_⟩, hn, fun p => ?_⟩
    · rw [← List.cons_append, ← List.append_assoc, hs]
      exact hl
    · rw [hm, contains_unite, contains_chars hcd]
      tauto
  | .escape h hb, s, inner, outer, o, hd => by
    obtain ⟨v, named, rfl, hnamed, hv⟩ := arrives_classEscape limit h
    have hitem : Arrives limit ((s.inMode (.inClass inner outer (placeOf first))).at o) ('\\' :: v)
        (s.inMode (.inClass (inner.unite named) outer .items)) := by
      apply Arrives.cons (o := o) (t := s.inMode (.escape o (.item inner outer)))
      · cases first <;> rfl
      · intro o'
        exact hv s _ o (.item inner outer) o' rfl
    obtain ⟨o', hs⟩ := hitem.run_append
    obtain ⟨last, ⟨o'', hl⟩, hn, hm⟩ := arrives_classBody hb s (inner.unite named) outer o' hd
    refine ⟨last, ⟨o'', ?_⟩, hn, fun p => ?_⟩
    · rw [hs]
      exact hl
    · rw [hm, contains_unite, hnamed]
      tauto
  | .nested h hb, s, inner, outer, o, hd => by
    obtain ⟨v, rfl, hpos, hv⟩ := arrives_class h s (inner :: outer) hd
    obtain ⟨member, ⟨o', hr⟩, hmember⟩ := hv o (o + '['.utf8Size)
    have hitem : Arrives limit ((s.inMode (.inClass inner outer (placeOf first))).at o) ('[' :: v)
        (s.inMode (.inClass (inner.unite member.value) outer .items)) := by
      have hlimit : ¬ limit ≤ s.depth := by omega
      refine ⟨o', ?_⟩
      rw [run_cons, step]
      change Except.map _ (stepClass limit _ inner outer (placeOf first) '[') >>= _ = _
      rw [stepClass_placeOf, stepItem, if_neg (by simp), if_pos rfl, enter]
      change Except.map _ (if limit ≤ s.depth then _ else _) >>= _ = _
      rw [if_neg hlimit]
      exact hr
    obtain ⟨o', hs⟩ := hitem.run_append
    obtain ⟨last, ⟨o'', hl⟩, hn, hm⟩ :=
      arrives_classBody hb s (inner.unite member.value) outer o' hd
    refine ⟨last, ⟨o'', ?_⟩, hn, fun p => ?_⟩
    · rw [hs]
      exact hl
    · rw [hm, contains_unite, hmember]
      tauto

end

end Classes

end PatternAutomata.Parser
