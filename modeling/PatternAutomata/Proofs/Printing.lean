import PatternAutomata.Node.Shape
import PatternAutomata.Proofs.Grammar
import PatternAutomata.Proofs.Meaning
import PatternAutomata.Proofs.Surrogates

/-!
The written form of a pattern is a pattern of the grammar, with the same meaning over the points
that a matcher can be given. Surrogates are not among these: a set that holds some is written with
its surrogates settled.
-/

set_option autoImplicit false

namespace PatternAutomata.Grammar

section Numerals

variable {base n : ℕ} {value? : Char → Option ℕ}

/-- The digits of a number, each written by `g`, are a numeral for it. -/
theorem isNumeral_toDigits (hb : 1 < base) {g : Char → Char}
    (hg : ∀ d < base, value? (g (Nat.digitChar d)) = some d) (n : ℕ) :
    IsNumeral base value? ((Nat.toDigits base n).map g) n := by
  induction n using Nat.strong_induction_on with
  | _ n ih =>
    rw [Nat.toDigits_eq_if hb]
    split
    · rename_i hn
      have := (IsNumeral.nil : IsNumeral base value? [] 0).snoc (hg n hn)
      rwa [Nat.zero_mul, Nat.zero_add] at this
    · rename_i hn
      have hpos : 0 < n := by omega
      have := (ih (n / base) (Nat.div_lt_self hpos hb)).snoc
        (hg (n % base) (Nat.mod_lt n (by omega)))
      rwa [Nat.div_add_mod', ← List.map_singleton, ← List.map_append] at this

theorem isCount_decimal (h : n < 2 ^ 32) : IsCount (Digits.decimal n) n := by
  refine ⟨Nat.toDigits_ne_nil, ?_, h⟩
  have := isNumeral_toDigits (g := id) (by decide) (fun d => Digits.decimalValue?_digitChar) n
  rwa [List.map_id] at this

theorem isHex_upperHex (n : ℕ) : IsHex (Digits.upperHex n) n :=
  isNumeral_toDigits (by decide) (fun d => Digits.upperValue?_digitChar) n

theorem charEscape_codeEscape (c : Char) : CharEscape (Node.codeEscape c.toNat) c := by
  have hlt : c.toNat < 16 ^ 6 := by
    obtain ⟨-, h⟩ := Point.inDomain_ofChar c
    simp only [Point.ofChar, Point.top] at h
    omega
  apply CharEscape.braces (isHex_upperHex c.toNat)
  · rw [Digits.upperHex, List.length_map]
    exact Nat.length_toDigits_pos
  · rw [Digits.upperHex, List.length_map]
    exact (Nat.length_toDigits_le_iff (by decide) (by decide)).2 hlt

end Numerals

section Characters

variable {depth : ℕ}

theorem renderChar_cases (c : Char) :
    Node.renderChar c = [c] ∨ CharEscape (Node.renderChar c) c := by
  unfold Node.renderChar
  split
  · rename_i h
    exact .inr (.control (by rw [h]; decide))
  · split
    · rename_i h
      exact .inr (.control (by rw [h]; decide))
    · split
      · rename_i h
        exact .inr (.control (by rw [h]; decide))
      · split
        · exact .inr (charEscape_codeEscape c)
        · exact .inl rfl

theorem renderLiteral_cases (c : Char) :
    (Node.renderLiteral c = [c] ∧ c ∉ reserved) ∨ CharEscape (Node.renderLiteral c) c := by
  unfold Node.renderLiteral
  split
  · rename_i h
    have hsigns : Node.special ⊆ signs := by decide
    exact .inr (.itself (hsigns h))
  · rename_i h
    have hreserved : reserved ⊆ Node.special := by decide
    exact (renderChar_cases c).imp_left fun hc => ⟨hc, mt (@hreserved c) h⟩

theorem isTerm_renderLiteral (c : Char) :
    IsTerm depth (Node.renderLiteral c) [] (.onePoint (· = Point.ofChar c)) := by
  rcases renderLiteral_cases c with ⟨hc, h⟩ | h
  · rw [hc]
    exact .literal h
  · exact .escape h

theorem noRange_of_head? {w : List Char} (h : w.head? ≠ some '-') : NoRange w := by
  rintro c r rfl
  exact absurd rfl h

/-- An end of a range is written so that it may stand anywhere in a class. -/
theorem renderClassPoint_spec {p : ℤ} {c : Char} (h : Point.char? p = some c) :
    UpperChar (Node.renderClassPoint p) c ∧
      (∀ first, LowerChar first (Node.renderClassPoint p) c) ∧
      ∃ d v, Node.renderClassPoint p = d :: v ∧ d ≠ '-' ∧ d ≠ '^' := by
  have escaped : ∀ w, CharEscape w c → UpperChar w c ∧ (∀ first, LowerChar first w c) ∧
      ∃ d v, w = d :: v ∧ d ≠ '-' ∧ d ≠ '^' := by
    intro w hw
    refine ⟨.escape hw, fun _ => .escape hw, ?_⟩
    cases hw <;> exact ⟨'\\', _, rfl, by decide, by decide⟩
  rw [Node.renderClassPoint, h]
  dsimp only
  split
  · rename_i hc
    have hsigns : Node.classSpecial ⊆ signs := by decide
    exact escaped _ (.itself (hsigns hc))
  · rename_i hc
    simp only [Node.classSpecial, List.mem_cons, List.not_mem_nil, or_false, not_or] at hc
    obtain ⟨h1, h2, h3, h4, h5⟩ := hc
    rcases renderChar_cases c with hw | hw
    · rw [hw]
      exact ⟨.plain (by simp [h1, h2]), fun _ => .plain (by simp [h1, h2, h5]), c, [], rfl, h4, h3⟩
    · exact escaped _ hw

end Characters

section Classes

variable {depth : ℕ} {rest : List Char} {members : ℤ → Prop}

def Writable (r : Span) : Prop :=
  r.start < r.stop ∧ (Point.char? r.start).isSome = true ∧ (Point.char? (r.stop - 1)).isSome = true

theorem head?_renderClassSpan {r : Span} (h : Writable r) (w : List Char) :
    (Node.renderClassSpan r ++ w).head? ≠ some '-' ∧
      (Node.renderClassSpan r ++ w).head? ≠ some '^' := by
  obtain ⟨-, hs, -⟩ := h
  obtain ⟨a, ha⟩ := Option.isSome_iff_exists.1 hs
  obtain ⟨-, -, d, v, hd, h1, h2⟩ := renderClassPoint_spec ha
  rw [Node.renderClassSpan, hd]
  exact ⟨mt Option.some.inj h1, mt Option.some.inj h2⟩

theorem classBody_renderClassSpan {r : Span} (h : Writable r) (hr : rest.head? ≠ some '-')
    (hb : ClassBody depth false rest members) (first : Bool) :
    ClassBody depth first (Node.renderClassSpan r ++ rest) fun p =>
      r.contains p = true ∨ members p := by
  obtain ⟨hlt, hs, he⟩ := h
  obtain ⟨a, ha⟩ := Option.isSome_iff_exists.1 hs
  obtain ⟨b, hb'⟩ := Option.isSome_iff_exists.1 he
  have hstart := Point.ofChar_of_char? ha
  have hstop := Point.ofChar_of_char? hb'
  obtain ⟨-, hlower, -⟩ := renderClassPoint_spec ha
  obtain ⟨hupper, -⟩ := renderClassPoint_spec hb'
  rw [Node.renderClassSpan]
  split
  · have hmembers : (fun p => r.contains p = true ∨ members p) = fun p =>
        (Point.ofChar a ≤ p ∧ p ≤ Point.ofChar b) ∨ members p := by
      funext p
      rw [Span.contains_iff, hstart, hstop, Int.le_sub_one_iff]
    have hle : a ≤ b := by
      simp only [Point.ofChar] at hstart hstop
      rw [Char.le_def, UInt32.le_iff_toNat_le, Char.toNat_val, Char.toNat_val]
      omega
    rw [hmembers, List.append_assoc, List.cons_append]
    exact .range (hlower first) hupper hle hb
  · rename_i hlength
    have hmembers : (fun p => r.contains p = true ∨ members p) = fun p =>
        p = Point.ofChar a ∨ members p := by
      funext p
      rw [Span.contains_iff, hstart]
      have : r.start ≤ p ∧ p < r.stop ↔ p = r.start := by
        rw [Span.length] at hlength
        omega
      rw [this]
    rw [hmembers, List.append_nil]
    exact .single (hlower first) (noRange_of_head? hr) hb

theorem classBody_spans {rs : List Span} (h : ∀ r ∈ rs, Writable r) :
    (rs.flatMap Node.renderClassSpan ++ [']']).head? ≠ some '-' ∧
      ClassBody depth false (rs.flatMap Node.renderClassSpan ++ [']']) fun p =>
        rs.any (·.contains p) = true := by
  induction rs with
  | nil =>
    refine ⟨by decide, ?_⟩
    simpa using ClassBody.close
  | cons r rs ih =>
    obtain ⟨hr, hrs⟩ := List.forall_mem_cons.1 h
    obtain ⟨hhead, hb⟩ := ih hrs
    rw [List.flatMap_cons, List.append_assoc]
    refine ⟨(head?_renderClassSpan hr _).1, ?_⟩
    simpa using classBody_renderClassSpan hr hhead hb false

theorem writable_settled {s : PointSet} (he : s.contains Point.endOfInput = false) {r : Span}
    (hr : r ∈ s.settleSurrogates.spans) : Writable r :=
  ⟨(s.settleSurrogates.separated.bounds r hr).2.1, PointSet.isSome_char?_ends he hr⟩

theorem settled_settled (s : PointSet) (p : ℤ) :
    Settled (fun p => s.settleSurrogates.contains p = true) p ↔
      s.settleSurrogates.contains p = true := by
  have hs : (fun p => s.settleSurrogates.contains p = true) =
      Settled fun p => s.contains p = true :=
    funext fun p => propext (contains_settled (fun _ => Iff.rfl) p)
  rw [hs, settled_settled_iff, contains_settled fun _ => Iff.rfl]

theorem isClass_spans {s : PointSet} (hs : ∀ r ∈ s.spans, Writable r) (hne : s.isEmpty = false) :
    IsClass (depth + 1) ('[' :: s.spans.flatMap Node.renderClassSpan ++ [']'])
      (Settled fun p => s.contains p = true) := by
  cases hspans : s.spans with
  | nil => simp [PointSet.isEmpty, hspans] at hne
  | cons r rs =>
    rw [hspans] at hs
    obtain ⟨hr, hrs⟩ := List.forall_mem_cons.1 hs
    obtain ⟨hhead, hb⟩ := @classBody_spans depth rs hrs
    have hbody := classBody_renderClassSpan hr hhead hb true
    have hmembers : (fun p => s.contains p = true) = fun p =>
        r.contains p = true ∨ rs.any (·.contains p) = true := by
      funext p
      rw [PointSet.contains, hspans, List.any_cons, Bool.or_eq_true]
    rw [hmembers, List.flatMap_cons, List.cons_append, List.append_assoc]
    exact .mk .plain (fun _ => (head?_renderClassSpan hr _).2) hbody

theorem isClass_nothing :
    IsClass (depth + 1) ('[' :: '^' :: Node.renderClassSpan Span.codePoints ++ [']'])
      fun _ => False := by
  have hw : Writable Span.codePoints := by
    refine ⟨by decide, ?_, ?_⟩ <;> rw [Point.isSome_char?_iff] <;> decide
  have hbody : ClassBody depth true (Node.renderClassSpan Span.codePoints ++ [']']) _ :=
    classBody_renderClassSpan hw (by decide) .close true
  have hclass := IsClass.mk .negated (by simp) hbody
  have hmembers : classValue true (fun p => Span.codePoints.contains p = true ∨ False) =
      fun _ => False := by
    funext p
    have hnone : ∀ p, ¬ (IsCodePoint p ∧ ¬ (Span.codePoints.contains p = true ∨ False)) := by
      rintro p ⟨hp, hn⟩
      exact hn (.inl (Span.contains_iff.2 hp))
    simp only [classValue, if_true, Negated, Settled, hnone]
    simp
  rwa [hmembers] at hclass

end Classes

section Sets

variable {depth : ℕ} {s : PointSet}

theorem contains_of_char? {t : PointSet} {c : Char} (h : t.char? = some c) (p : ℤ) :
    t.contains p = true ↔ p = Point.ofChar c := by
  unfold PointSet.char? PointSet.point? at h
  split at h
  · rename_i r hr
    split at h
    · rename_i hlength
      rw [Point.ofChar_of_char? h, PointSet.contains, hr]
      simp only [List.any_cons, List.any_nil, Bool.or_false, Span.contains_iff]
      rw [Span.length] at hlength
      omega
    · cases h
  · cases h

theorem exists_depth {w : List Char} (h : Node.openers ('[' :: w) ≤ depth) :
    ∃ d, depth = d + 1 := by
  apply Nat.exists_eq_add_of_le'
  rw [Node.openers, List.count_cons_self] at h
  omega

/-- What is neither a point nor one character is a class. -/
theorem isClass_renderChars (he : s.contains Point.endOfInput = false)
    (hall : s.settleSurrogates ≠ PointSet.codePoints) (hc : s.settleSurrogates.char? = none) :
    ∃ w members, Node.renderChars s.settleSurrogates = '[' :: w ∧
      (∀ depth, IsClass (depth + 1) ('[' :: w) members) ∧
      ∀ p, s.settleSurrogates.contains p = true ↔ members p := by
  rw [Node.renderChars, if_neg hall, hc]
  dsimp only
  split
  · rename_i hempty
    rw [PointSet.isEmpty_iff] at hempty
    exact ⟨_, _, rfl, fun _ => isClass_nothing, by simp [hempty]⟩
  · rename_i hempty
    have hne : s.settleSurrogates.isEmpty = false := by simpa using hempty
    exact ⟨_, _, rfl, fun _ => isClass_spans (fun r => writable_settled he) hne,
      fun p => (settled_settled s p).symm⟩

theorem isTerm_renderChars (he : s.contains Point.endOfInput = false)
    (hd : Node.openers (Node.renderChars s.settleSurrogates) ≤ depth) :
    IsTerm depth (Node.renderChars s.settleSurrogates) []
      (.onePoint fun p => s.settleSurrogates.contains p = true) := by
  by_cases hall : s.settleSurrogates = PointSet.codePoints
  · rw [Node.renderChars, if_pos hall, hall, onePoint_congr PointSet.contains_codePoints]
    exact .any
  cases hc : s.settleSurrogates.char? with
  | some c =>
    rw [Node.renderChars, if_neg hall, hc, onePoint_congr (contains_of_char? hc)]
    exact isTerm_renderLiteral c
  | none =>
    obtain ⟨w, members, hw, hclass, hmembers⟩ := isClass_renderChars he hall hc
    rw [hw] at hd ⊢
    obtain ⟨depth, rfl⟩ := exists_depth hd
    rw [onePoint_congr hmembers]
    exact .bracketed (hclass depth)

end Sets

end PatternAutomata.Grammar
