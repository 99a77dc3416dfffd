import PatternAutomata.Node.Grammar
import PatternAutomata.Node.Parser
import PatternAutomata.Proofs.PointSet

/-!
Facts about the grammar of patterns: the sets that have the members of its classes, what its forms
begin and end with, and that the members of classes are code points.
-/

set_option autoImplicit false

namespace PatternAutomata.Grammar

open PatternAutomata.Parser (decimalDigits blanks wordChars)

theorem isNameChar_iff (c : Char) : Parser.isNameChar c = true ↔ IsNameChar c := by
  have hletter : c.isAlphanum = (c.isUpper || c.isLower || c.isDigit) := rfl
  have hupper : c.isUpper = decide ('A'.val ≤ c.val ∧ c.val ≤ 'Z'.val) := rfl
  have hlower : c.isLower = (decide ('a'.val ≤ c.val) && decide (c.val ≤ 'z'.val)) := rfl
  have hdigit : c.isDigit = (decide ('0'.val ≤ c.val) && decide (c.val ≤ '9'.val)) := rfl
  simp only [Parser.isNameChar, IsNameChar, hletter, hupper, hlower, hdigit, Bool.or_eq_true,
    Bool.and_eq_true, decide_eq_true_eq, beq_iff_eq, Char.le_def]
  tauto

theorem lt_iff_le_countMax (n : ℕ) : n < 2 ^ 32 ↔ n ≤ Parser.countMax := by
  rw [Parser.countMax]
  omega

section Members

variable {members : ℤ → Prop} {s : PointSet}

theorem contains_settled (h : ∀ p, s.contains p = true ↔ members p) (p : ℤ) :
    s.settleSurrogates.contains p = true ↔ Settled members p := by
  rw [PointSet.contains_settleSurrogates, Settled]
  split
  · rw [Bool.and_eq_true, h, h]
  · exact h p

theorem settled_settled_iff (members : ℤ → Prop) (p : ℤ) :
    Settled (Settled members) p ↔ Settled members p := by
  have hlow : ¬ Span.surrogates.contains (Span.surrogates.start - 1) = true := by decide
  have hhigh : ¬ Span.surrogates.contains Span.surrogates.stop = true := by decide
  by_cases hp : Span.surrogates.contains p = true
  · rw [Settled, if_pos hp, Settled, if_neg hlow, Settled, if_neg hhigh, Settled, if_pos hp]
  · rw [Settled, if_neg hp]

theorem contains_complement (h : ∀ p, s.contains p = true ↔ members p)
    (he : s.contains Point.endOfInput = false) (p : ℤ) :
    s.complement.contains p = true ↔ Negated members p := by
  apply contains_settled
  intro p
  rw [PointSet.contains_invert (by decide), IsCodePoint, ← h]
  have hcode : Span.codePoints.contains p = true ↔ 0 ≤ p ∧ p < Point.top := Span.contains_iff
  split
  · rename_i hp
    simp [hcode.1 hp]
  · rename_i hp
    rw [hcode] at hp
    simp only [hp, false_and, iff_false]
    intro hs
    obtain ⟨h1, h2⟩ := PointSet.inDomain_of_contains hs
    have : p ≠ Point.endOfInput := by
      rintro rfl
      rw [he] at hs
      contradiction
    simp only [Point.endOfInput] at h1 this
    omega

theorem contains_chars {a b : Char} (h : a ≤ b) (p : ℤ) :
    (PointSet.ofSpan (.ofChars a b)).contains p = true ↔
      Point.ofChar a ≤ p ∧ p ≤ Point.ofChar b := by
  obtain ⟨-, hb⟩ := Point.inDomain_ofChar b
  obtain ⟨ha, -⟩ := Point.inDomain_ofChar a
  rw [PointSet.contains_ofSpan, Bool.and_eq_true, Span.contains_iff, Span.contains_iff,
    Span.ofChars, if_pos h]
  simp only [Span.domain]
  omega

theorem contains_decimalDigits (p : ℤ) : decimalDigits.contains p = true ↔ IsDigit p :=
  contains_chars (by decide) p

theorem contains_blanks (p : ℤ) : blanks.contains p = true ↔ IsBlank p := by
  rw [blanks, PointSet.contains_ofSpans]
  simp only [List.any_cons, List.any_nil, Bool.and_eq_true, Bool.or_eq_true, Span.contains_iff,
    Bool.false_eq_true, or_false]
  change ((9 ≤ p ∧ p < 14) ∨ (32 ≤ p ∧ p < 33)) ∧ (-1 ≤ p ∧ p < 0x110000) ↔ _
  rw [IsBlank]
  omega

theorem contains_wordChars (p : ℤ) : wordChars.contains p = true ↔ IsWord p := by
  rw [wordChars, PointSet.contains_ofSpans]
  simp only [List.any_cons, List.any_nil, Bool.and_eq_true, Bool.or_eq_true, Span.contains_iff,
    Bool.false_eq_true, or_false]
  change ((48 ≤ p ∧ p < 58) ∨ (65 ≤ p ∧ p < 91) ∨ (95 ≤ p ∧ p < 96) ∨ (97 ≤ p ∧ p < 123)) ∧
    (-1 ≤ p ∧ p < 0x110000) ↔ _
  rw [IsWord, IsDigit]
  omega

end Members

section Forms

variable {members : ℤ → Prop} {w : List Char}

theorem isSome_of_isNumeral {base n : ℕ} {value? : Char → Option ℕ} (h : IsNumeral base value? w n)
    {c : Char} (hc : c ∈ w) : (value? c).isSome = true := by
  induction h with
  | nil => cases hc
  | snoc _ hv ih =>
    rcases List.mem_append.1 hc with hc | hc
    · exact ih hc
    · obtain rfl := List.mem_singleton.1 hc
      exact Option.isSome_of_eq_some hv

theorem getLast?_classBody {depth : ℕ} {first : Bool} {w : List Char} {members : ℤ → Prop} :
    ClassBody depth first w members → w.getLast? = some ']'
  | .close => rfl
  | .single _ _ hb => by simp [List.getLast?_append, getLast?_classBody hb]
  | .range _ _ _ hb => by simp [List.getLast?_append, List.getLast?_cons, getLast?_classBody hb]
  | .escape _ hb => by simp [List.getLast?_append, getLast?_classBody hb]
  | .nested _ hb => by simp [List.getLast?_append, getLast?_classBody hb]

theorem isCodePoint_ofChar (c : Char) : IsCodePoint (Point.ofChar c) := by
  obtain ⟨-, h⟩ := Point.inDomain_ofChar c
  exact ⟨Int.natCast_nonneg _, h⟩

theorem Settled.isCodePoint {p : ℤ} (h : ∀ p, members p → IsCodePoint p) (hp : Settled members p) :
    IsCodePoint p := by
  rw [Settled] at hp
  split at hp
  · rename_i hs
    obtain ⟨h1, h2⟩ := Span.contains_iff.1 hs
    simp only [Span.surrogates] at h1 h2
    exact ⟨by omega, by simp only [Point.top]; omega⟩
  · exact h p hp

theorem isCodePoint_of_classEscape {p : ℤ} (h : ClassEscape w members) (hp : members p) :
    IsCodePoint p := by
  have negated : ∀ m : ℤ → Prop, Negated m p → IsCodePoint p := by
    intro m hm
    exact Settled.isCodePoint (fun _ h => h.1) hm
  cases h with
  | notDigit => exact negated _ hp
  | notBlank => exact negated _ hp
  | notWord => exact negated _ hp
  | digit =>
    simp only [IsDigit, IsCodePoint, Point.top] at *
    omega
  | blank =>
    simp only [IsBlank, IsCodePoint, Point.top] at *
    omega
  | word =>
    simp only [IsWord, IsDigit, IsCodePoint, Point.top] at *
    omega

theorem classValue_isCodePoint {negated : Bool} {p : ℤ} (h : ∀ p, members p → IsCodePoint p)
    (hp : classValue negated members p) : IsCodePoint p := by
  cases negated with
  | true => exact Settled.isCodePoint (fun _ h => h.1) (show Negated members p from hp)
  | false => exact Settled.isCodePoint h hp

mutual

theorem isCodePoint_of_isClass {depth : ℕ} {w : List Char} {members : ℤ → Prop} :
    IsClass depth w members → ∀ p, members p → IsCodePoint p
  | .mk _ _ hb, _, hp => classValue_isCodePoint (isCodePoint_of_classBody hb) hp

theorem isCodePoint_of_classBody {depth : ℕ} {first : Bool} {w : List Char}
    {members : ℤ → Prop} : ClassBody depth first w members → ∀ p, members p → IsCodePoint p
  | .single (c := c) _ _ hb, p, hp => by
    rcases hp with rfl | hp
    · exact isCodePoint_ofChar c
    · exact isCodePoint_of_classBody hb p hp
  | .range (c := c) (d := d) _ _ _ hb, p, hp => by
    rcases hp with ⟨h1, h2⟩ | hp
    · obtain ⟨h3, -⟩ := isCodePoint_ofChar c
      obtain ⟨-, h4⟩ := isCodePoint_ofChar d
      exact ⟨h3.trans h1, h2.trans_lt h4⟩
    · exact isCodePoint_of_classBody hb p hp
  | .escape h hb, p, hp => by
    rcases hp with hp | hp
    · exact isCodePoint_of_classEscape h hp
    · exact isCodePoint_of_classBody hb p hp
  | .nested h hb, p, hp => by
    rcases hp with hp | hp
    · exact isCodePoint_of_isClass h p hp
    · exact isCodePoint_of_classBody hb p hp

end

end Forms

end PatternAutomata.Grammar
