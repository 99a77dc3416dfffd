import PatternAutomata.Proofs.Acceleration
import PatternAutomata.Proofs.Which

/-!
Feeding piece by piece. Where a text is cut does not matter to a matcher: a feed of both pieces is a
feed of the first, and of the second if the matcher got through the first. The same holds of feeds
that search the bytes of each piece for exits, though the first search ends at the cut.
-/

set_option autoImplicit false

namespace PatternAutomata

theorem Builder.asciiExits {b : Builder} {nodes : List Node} {p : Program}
    (h : b.ofNodes nodes = .ok p) : p.AsciiExits := by
  obtain ⟨-, d, -, rfl⟩ := ofNodes_eq_ok h
  exact Program.asciiExits_ofDfa d _

namespace Matcher

/-- The matcher got through all that came before the offset, and can go on there. -/
def Through (m : Matcher) (offset : ℕ) : Prop := m.isValid = true ∧ m.index = offset

instance (m : Matcher) (offset : ℕ) : Decidable (m.Through offset) :=
  inferInstanceAs (Decidable (_ ∧ _))

section

variable (p : Program) (stopReluctantly : Bool)

theorem consume_append (id : ℕ) (domain : Option ℕ) (offset : ℕ) (xs ys : List Char) :
    consume p stopReluctantly id domain offset (xs ++ ys) =
      if (consume p stopReluctantly id domain offset xs).Through
          (offset + Offset.byteLength xs) then
        (consume p stopReluctantly id domain offset xs).feedChars p
          (offset + Offset.byteLength xs) ys stopReluctantly
      else consume p stopReluctantly id domain offset xs := by
  induction xs generalizing id domain offset with
  | nil => exact (if_pos ⟨rfl, rfl⟩).symm
  | cons c xs ih =>
    have hpos := c.utf8Size_pos
    rw [List.cons_append, consume, consume, Offset.byteLength, ← Nat.add_assoc]
    split
    case isTrue => exact ih id domain (offset + c.utf8Size)
    case isFalse =>
      cases p.act id (Point.ofChar c) with
      | fail => exact (if_neg fun h => Bool.false_ne_true h.1).symm
      | goto next update reluctant =>
        simp only
        split
        case isTrue =>
          -- A stop leaves the index before the character.
          refine (if_neg fun h => ?_).symm
          have hindex : offset = offset + c.utf8Size + Offset.byteLength xs := h.2
          omega
        case isFalse => exact ih next (update.apply domain) (offset + c.utf8Size)

theorem feedChars_of_failed {m : Matcher} (hstate : m.state = none) (offset : ℕ)
    (cs : List Char) : m.feedChars p offset cs stopReluctantly = { m with index := offset } := by
  rw [feedChars, hstate]

theorem feedChars_of_state {m : Matcher} {id : ℕ} (hstate : m.state = some id) (offset : ℕ)
    (cs : List Char) : m.feedChars p offset cs stopReluctantly =
      consume p stopReluctantly id m.domain offset cs := by
  rw [feedChars, hstate]

theorem feedChars_append (m : Matcher) (offset : ℕ) (xs ys : List Char) :
    m.feedChars p offset (xs ++ ys) stopReluctantly =
      if (m.feedChars p offset xs stopReluctantly).Through (offset + Offset.byteLength xs) then
        (m.feedChars p offset xs stopReluctantly).feedChars p (offset + Offset.byteLength xs) ys
          stopReluctantly
      else m.feedChars p offset xs stopReluctantly := by
  cases hstate : m.state with
  | none =>
    rw [feedChars_of_failed p stopReluctantly hstate, feedChars_of_failed p stopReluctantly hstate,
      if_neg]
    rintro ⟨hvalid, -⟩
    rw [isValid, hstate] at hvalid
    cases hvalid
  | some id =>
    rw [feedChars_of_state p stopReluctantly hstate, feedChars_of_state p stopReluctantly hstate]
    exact consume_append p stopReluctantly id m.domain offset xs ys

theorem index_consume (id : ℕ) (domain : Option ℕ) (offset : ℕ) (cs : List Char) :
    offset ≤ (consume p stopReluctantly id domain offset cs).index ∧
      (consume p stopReluctantly id domain offset cs).index ≤
        offset + Offset.byteLength cs := by
  induction cs generalizing id domain offset with
  | nil => exact ⟨le_rfl, le_rfl⟩
  | cons c cs ih =>
    have hnext : ∀ id domain,
        offset ≤ (consume p stopReluctantly id domain (offset + c.utf8Size) cs).index ∧
          (consume p stopReluctantly id domain (offset + c.utf8Size) cs).index ≤
            offset + Offset.byteLength (c :: cs) := by
      intro id domain
      have := ih id domain (offset + c.utf8Size)
      rw [Offset.byteLength]
      omega
    rw [consume]
    split
    case isTrue => exact hnext id domain
    case isFalse =>
      cases p.act id (Point.ofChar c) with
      | fail => exact ⟨le_rfl, Nat.le_add_right _ _⟩
      | goto next update reluctant =>
        simp only
        split
        case isTrue => exact ⟨le_rfl, Nat.le_add_right _ _⟩
        case isFalse => exact hnext next (update.apply domain)

theorem index_feedChars (m : Matcher) (offset : ℕ) (cs : List Char) :
    offset ≤ (m.feedChars p offset cs stopReluctantly).index ∧
      (m.feedChars p offset cs stopReluctantly).index ≤ offset + Offset.byteLength cs := by
  rw [feedChars]
  split
  case h_1 => exact ⟨le_rfl, Nat.le_add_right _ _⟩
  case h_2 id _ => exact index_consume p stopReluctantly id m.domain offset cs

end

/-- A feed up to `stop` is a feed up to `middle`, and another from there if the matcher got through;
if it failed or stopped, the second piece makes no difference. -/
theorem feed_pieces (p : Program) (m : Matcher) (stopReluctantly : Bool) {text : String}
    {start middle stop : ℕ} (hstart : Offset.Boundary text.toList start)
    (hmiddle : Offset.Boundary text.toList middle) (hstop : Offset.Boundary text.toList stop)
    (hle : start ≤ middle) (hle' : middle ≤ stop) :
    ∃ m₁ m₂, m.feed p text start middle stopReluctantly = .ok m₁ ∧
      m.feed p text start stop stopReluctantly = .ok m₂ ∧
      (m₁.Through middle → m₁.feed p text middle stop stopReluctantly = .ok m₂) ∧
      (¬ m₁.Through middle → m₂ = m₁ ∧ (m₁.isValid = false ∨ m₁.index < middle)) ∧
      (p.AsciiExits → ∀ search : ByteSearch, search.Exact →
        m.feedBySearch search p text start middle stopReluctantly = .ok m₁ ∧
        m.feedBySearch search p text start stop stopReluctantly = .ok m₂ ∧
        (m₁.Through middle →
          m₁.feedBySearch search p text middle stop stopReluctantly = .ok m₂)) := by
  obtain ⟨xs, hxs⟩ := hstart.between hmiddle hle
  obtain ⟨ys, hys⟩ := hmiddle.between hstop hle'
  have hlength : start + Offset.byteLength xs = middle := by
    obtain ⟨_, _, _, _, hlength⟩ := hxs
    exact hlength
  have hfeed : ∀ (m : Matcher) {i j : ℕ} {cs : List Char}, Offset.Between text.toList i j cs →
      m.feed p text i j stopReluctantly = .ok (m.feedChars p i cs stopReluctantly) := by
    intro m i j cs hcs
    rw [feed, slice_eq_ok hcs]
    rfl
  have happend := feedChars_append p stopReluctantly m start xs ys
  have hindex := index_feedChars p stopReluctantly m start xs
  rw [hlength] at happend hindex
  have hfirst := hfeed m hxs
  have hboth := hfeed m (hxs.join hys)
  generalize m.feedChars p start xs stopReluctantly = m₁ at happend hindex hfirst
  generalize m.feedChars p start (xs ++ ys) stopReluctantly = m₂ at happend hboth
  have hsecond : m₁.Through middle → m₁.feed p text middle stop stopReluctantly = .ok m₂ := by
    intro hthrough
    rw [happend, if_pos hthrough]
    exact hfeed m₁ hys
  refine ⟨m₁, m₂, hfirst, hboth, hsecond, fun hnot => ⟨?_, ?_⟩, fun hp search hsearch => ?_⟩
  · rw [happend, if_neg hnot]
  · cases hvalid : m₁.isValid with
    | false => exact .inl rfl
    | true =>
      have hne : m₁.index ≠ middle := fun heq => hnot ⟨hvalid, heq⟩
      exact .inr (by omega)
  · simp only [feedBySearch_eq hsearch hp]
    exact ⟨hfirst, hboth, hsecond⟩

/-- A state that skips all but a slash is cut in the middle of what it skips. -/
theorem feed_pieces_slash :
    ∃ p m₁ m₂, Builder.new.ofNodes
        [.concat [.text ['a'], .zeroOrMore (.set (PointSet.single '/').complement)]] = .ok p ∧
      p.skipping = 1 ∧ Matcher.new.feed p "aéé/b" 0 3 false = .ok m₁ ∧ m₁.Through 3 ∧
      m₁.feed p "aéé/b" 3 7 false = .ok m₂ ∧ Matcher.new.feed p "aéé/b" 0 7 false = .ok m₂ ∧
      m₂.index = 5 ∧ m₁.feedBySearch .linear p "aéé/b" 3 7 false = .ok m₂ := by
  have hrun : (Builder.new.ofNodes
      [.concat [.text ['a'], .zeroOrMore (.set (PointSet.single '/').complement)]]).map (fun p =>
        (p.skipping, (Matcher.new.feed p "aéé/b" 0 3 false).map (decide <| ·.Through 3),
          (Matcher.new.feed p "aéé/b" 0 7 false).map Matcher.index)) =
      .ok (1, .ok true, .ok 5) := by
    decide +kernel
  cases hp : Builder.new.ofNodes
      [.concat [.text ['a'], .zeroOrMore (.set (PointSet.single '/').complement)]] with
  | error e =>
    rw [hp] at hrun
    cases hrun
  | ok p =>
    have hstart : Offset.Boundary "aéé/b".toList 0 := ⟨[], _, rfl, rfl⟩
    have hmiddle : Offset.Boundary "aéé/b".toList 3 :=
      ⟨['a', 'é'], ['é', '/', 'b'], by decide, by decide⟩
    have hstop : Offset.Boundary "aéé/b".toList 7 :=
      ⟨['a', 'é', 'é', '/', 'b'], [], by decide, by decide⟩
    obtain ⟨m₁, m₂, hfirst, hboth, hsecond, -, hsearch⟩ :=
      feed_pieces p .new false hstart hmiddle hstop (by decide) (by decide)
    obtain ⟨-, -, hlast⟩ := hsearch (Builder.asciiExits hp) .linear ByteSearch.linear_exact
    rw [hp] at hrun
    simp only [Except.map, hfirst, hboth, Except.ok.injEq, Prod.mk.injEq,
      decide_eq_true_eq] at hrun
    obtain ⟨hskipping, hthrough, hindex⟩ := hrun
    exact ⟨p, m₁, m₂, rfl, hskipping, hfirst, hthrough, hsecond hthrough, hboth, hindex,
      hlast hthrough⟩

end Matcher

end PatternAutomata
