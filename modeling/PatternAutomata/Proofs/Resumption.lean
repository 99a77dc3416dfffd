import PatternAutomata.Proofs.Pieces

/-!
Going on after a reluctant stop. A feed that may stop reluctantly leaves a matcher that remembers
all that is needed: fed the rest, from its index on and without a stop, it becomes what it would
have become if it had never stopped.
-/

set_option autoImplicit false

namespace PatternAutomata.Matcher

/-- `m` was fed some of the characters from `offset` on and left the others; fed those it becomes
`whole`. -/
def Resumes (p : Program) (offset : ℕ) (cs : List Char) (m whole : Matcher) : Prop :=
  ∃ taken left, cs = taken ++ left ∧ m.index = offset + Offset.byteLength taken ∧
    m.feedChars p m.index left false = whole

section

variable {p : Program} {offset : ℕ} {c : Char} {cs : List Char} {m whole : Matcher}

theorem resumes_of_index (hindex : m.index = offset) :
    Resumes p offset cs m (m.feedChars p offset cs false) := by
  refine ⟨[], cs, rfl, hindex, ?_⟩
  rw [hindex]

theorem Resumes.cons (h : Resumes p (offset + c.utf8Size) cs m whole) :
    Resumes p offset (c :: cs) m whole := by
  obtain ⟨taken, left, rfl, hindex, hfeed⟩ := h
  refine ⟨c :: taken, left, rfl, ?_, hfeed⟩
  rw [hindex, Offset.byteLength, Nat.add_assoc]

end

section

variable (p : Program) (stopReluctantly : Bool)

theorem consume_resumes (id : ℕ) (domain : Option ℕ) (offset : ℕ) (cs : List Char) :
    Resumes p offset cs (consume p stopReluctantly id domain offset cs)
      (consume p false id domain offset cs) := by
  induction cs generalizing id domain offset with
  | nil => exact resumes_of_index rfl
  | cons c cs ih =>
    by_cases hskip : p.skips id c = true
    · have hgoes : ∀ stop, consume p stop id domain offset (c :: cs) =
          consume p stop id domain (offset + c.utf8Size) cs := by
        intro stop
        rw [consume, if_pos hskip]
      rw [hgoes, hgoes]
      exact (ih id domain (offset + c.utf8Size)).cons
    · cases hact : p.act id (Point.ofChar c) with
      | fail =>
        have hfails : ∀ stop, consume p stop id domain offset (c :: cs) =
            ⟨none, domain, offset⟩ := by
          intro stop
          rw [consume, if_neg hskip, hact]
        rw [hfails, hfails]
        exact resumes_of_index rfl
      | goto next update reluctant =>
        have hgoes : consume p false id domain offset (c :: cs) =
            consume p false next (update.apply domain) (offset + c.utf8Size) cs := by
          rw [consume, if_neg hskip, hact]
          simp only [Bool.and_false, Bool.false_and, Bool.false_eq_true, if_false]
        by_cases hstop : (reluctant && stopReluctantly && p.isTerminal id) = true
        · -- The state is not left and the domain not updated, so the same step is still to come.
          have hstops : consume p stopReluctantly id domain offset (c :: cs) =
              ⟨some id, domain, offset⟩ := by
            rw [consume, if_neg hskip, hact]
            exact if_pos hstop
          rw [hstops]
          exact resumes_of_index rfl
        · have hpasses : consume p stopReluctantly id domain offset (c :: cs) =
              consume p stopReluctantly next (update.apply domain) (offset + c.utf8Size) cs := by
            rw [consume, if_neg hskip, hact]
            exact if_neg hstop
          rw [hgoes, hpasses]
          exact (ih next (update.apply domain) (offset + c.utf8Size)).cons

theorem feedChars_resumes (m : Matcher) (offset : ℕ) (cs : List Char) :
    Resumes p offset cs (m.feedChars p offset cs stopReluctantly)
      (m.feedChars p offset cs false) := by
  cases hstate : m.state with
  | none =>
    rw [feedChars_of_failed p stopReluctantly hstate]
    have hstill : m.feedChars p offset cs false =
        ({ m with index := offset } : Matcher).feedChars p offset cs false := by
      rw [feedChars_of_failed p false hstate, feedChars_of_failed p false]
      exact hstate
    rw [hstill]
    exact resumes_of_index rfl
  | some id =>
    rw [feedChars_of_state p stopReluctantly hstate, feedChars_of_state p false hstate]
    exact consume_resumes p stopReluctantly id m.domain offset cs

end

theorem feed_eq_ok (p : Program) (m : Matcher) (stopReluctantly : Bool) {text : String}
    {start stop : ℕ} {piece : List Char} (h : Offset.Between text.toList start stop piece) :
    m.feed p text start stop stopReluctantly = .ok (m.feedChars p start piece stopReluctantly) := by
  rw [feed, slice_eq_ok h]
  rfl

/-- After a feed that may stop reluctantly, a feed of the rest that may not ends where a single feed
that may not does. This holds wherever the first one ended and for whatever reason, and of feeds by
searches too. -/
theorem feed_resumed (p : Program) (m : Matcher) {text : String} {start stop : ℕ}
    (hstart : Offset.Boundary text.toList start) (hstop : Offset.Boundary text.toList stop)
    (hle : start ≤ stop) :
    ∃ m₁ m₂, m.feed p text start stop true = .ok m₁ ∧
      m₁.feed p text m₁.index stop false = .ok m₂ ∧
      m.feed p text start stop false = .ok m₂ ∧
      (p.AsciiExits → ∀ search : ByteSearch, search.Exact →
        m.feedBySearch search p text start stop true = .ok m₁ ∧
        m₁.feedBySearch search p text m₁.index stop false = .ok m₂ ∧
        m.feedBySearch search p text start stop false = .ok m₂) := by
  obtain ⟨piece, hpiece⟩ := hstart.between hstop hle
  have hfirst := feed_eq_ok p m true hpiece
  have hwhole := feed_eq_ok p m false hpiece
  obtain ⟨taken, left, rfl, hindex, hresumes⟩ := feedChars_resumes p true m start piece
  obtain ⟨-, hleft⟩ := hpiece.split
  rw [← hindex] at hleft
  have hsecond := feed_eq_ok p (m.feedChars p start (taken ++ left) true) false hleft
  rw [hresumes] at hsecond
  refine ⟨_, _, hfirst, hsecond, hwhole, fun hp search hsearch => ?_⟩
  simp only [feedBySearch_eq hsearch hp]
  exact ⟨hfirst, hsecond, hwhole⟩

/-- A state that skips all but a slash is left behind by a reluctant stop, at the slash. -/
theorem feed_resumed_slash :
    ∃ p m₁ m₂, Builder.new.ofNodes [.concat [.text ['a'],
        .zeroOrMore (.set (PointSet.single '/').complement),
        .repeated (.text ['/', 'b']) 0 (some 1) true]] = .ok p ∧
      p.skipping = 1 ∧ Matcher.new.feed p "aéé/b" 0 7 true = .ok m₁ ∧ m₁.index = 5 ∧
      m₁.feed p "aéé/b" m₁.index 7 false = .ok m₂ ∧
      Matcher.new.feed p "aéé/b" 0 7 false = .ok m₂ ∧ m₂.index = 7 ∧
      m₁.feedBySearch .linear p "aéé/b" m₁.index 7 false = .ok m₂ := by
  have hrun : (Builder.new.ofNodes [.concat [.text ['a'],
      .zeroOrMore (.set (PointSet.single '/').complement),
      .repeated (.text ['/', 'b']) 0 (some 1) true]]).map (fun p =>
        (p.skipping, (Matcher.new.feed p "aéé/b" 0 7 true).map Matcher.index,
          (Matcher.new.feed p "aéé/b" 0 7 false).map Matcher.index)) =
      .ok (1, .ok 5, .ok 7) := by
    decide +kernel
  cases hp : Builder.new.ofNodes [.concat [.text ['a'],
      .zeroOrMore (.set (PointSet.single '/').complement),
      .repeated (.text ['/', 'b']) 0 (some 1) true]] with
  | error e =>
    rw [hp] at hrun
    cases hrun
  | ok p =>
    have hstart : Offset.Boundary "aéé/b".toList 0 := ⟨[], _, rfl, rfl⟩
    have hstop : Offset.Boundary "aéé/b".toList 7 :=
      ⟨['a', 'é', 'é', '/', 'b'], [], by decide, by decide⟩
    obtain ⟨m₁, m₂, hfirst, hsecond, hwhole, hsearch⟩ :=
      feed_resumed p .new hstart hstop (by decide)
    obtain ⟨-, hlast, -⟩ := hsearch (Builder.asciiExits hp) .linear ByteSearch.linear_exact
    rw [hp] at hrun
    simp only [Except.map, hfirst, hwhole, Except.ok.injEq, Prod.mk.injEq] at hrun
    obtain ⟨hskipping, hstopped, hindex⟩ := hrun
    exact ⟨p, m₁, m₂, rfl, hskipping, hfirst, hstopped, hsecond, hwhole, hindex, hlast⟩

end PatternAutomata.Matcher
