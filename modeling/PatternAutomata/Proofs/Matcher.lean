import PatternAutomata.Matcher.Session
import PatternAutomata.Proofs.Generate

/-!
How a matcher stands: it is in the image of the state that the points it has consumed lead to, and
reports the pattern of that state, or none if it has consumed nothing. Each way of consuming keeps
to this.
-/

set_option autoImplicit false

namespace PatternAutomata

namespace Matcher

open Dfa (InRange)

structure Located (d : Dfa) (w : List ℤ) (q : ℕ) (domain : Option ℕ) : Prop where
  run : d.run? Dfa.start w = some q
  lt : q < d.size
  domain : domain = if w = [] then none else d.reported q

/-- How a feed ends in `q`: nothing is left, or it stops in an accepting state because what comes
next is reluctant, or there is no transition on what comes next. -/
inductive Halts (d : Dfa) (stopReluctantly : Bool) (q : ℕ) : List Char → Option ℕ → Prop
  | done : Halts d stopReluctantly q [] (some (d.rank q))
  | stopped {c : Char} {cs : List Char} {t : Dfa.Transition} (hs : stopReluctantly = true)
    (ht : d.transition? q (Point.ofChar c) = some t) (hr : t.reluctant = true)
    (hq : (d.reported q).isSome = true) : Halts d stopReluctantly q (c :: cs) (some (d.rank q))
  | failed {c : Char} {cs : List Char} (ht : d.transition? q (Point.ofChar c) = none) :
    Halts d stopReluctantly q (c :: cs) none

/-- A matcher was given the points `w` and told to stop nowhere: it is where they lead to, or it
failed because they lead nowhere. -/
inductive Given (d : Dfa) (w : List ℤ) (m : Matcher) : Prop
  | located {q : ℕ} (hloc : Located d w q m.domain) (hstate : m.state = some (d.rank q))
  | failed (hrun : d.run? Dfa.start w = none) (hstate : m.state = none)

/-- What comes of feeding `cs` after the points `w`: some of the characters are taken, and what is
left of them is where the feed halts. -/
def Consumes (d : Dfa) (stopReluctantly : Bool) (w : List ℤ) (offset : ℕ) (cs : List Char)
    (m : Matcher) : Prop :=
  ∃ taken left q, cs = taken ++ left ∧ m.index = offset + Offset.byteLength taken ∧
    Located d (w ++ taken.map Point.ofChar) q m.domain ∧ Halts d stopReluctantly q left m.state

theorem located_nil {d : Dfa} (hd : InRange d) : Located d [] Dfa.start none :=
  ⟨rfl, hd.start, rfl⟩

section

variable {d : Dfa} (hd : InRange d) {w : List ℤ} {q : ℕ} {domain : Option ℕ}

theorem Located.reports (h : Located d w q domain) : d.Reports q domain := by
  by_cases hw : w = []
  · have hrun := h.run
    have hdomain := h.domain
    rw [hw] at hrun
    rw [if_pos hw] at hdomain
    exact .inr ⟨(Option.some.inj hrun).symm, hdomain⟩
  · have hdomain := h.domain
    rw [if_neg hw] at hdomain
    exact .inl hdomain

theorem Located.run?_append (h : Located d w q domain) (p : ℤ) :
    d.run? Dfa.start (w ++ [p]) = (d.transition? q p).map (·.target) := by
  rw [Dfa.run?_append, h.run, Option.bind_some, Dfa.run?_singleton, Dfa.next?]

theorem Given.isValid_iff {m : Matcher} (h : Given d w m) :
    m.isValid = true ↔ ∃ q, d.run? Dfa.start w = some q := by
  rw [isValid]
  cases h with
  | located hloc hstate =>
    rw [hstate]
    exact ⟨fun _ => ⟨_, hloc.run⟩, fun _ => rfl⟩
  | failed hrun hstate =>
    rw [hstate, hrun]
    constructor
    · intro hvalid
      cases hvalid
    · rintro ⟨_, hsome⟩
      cases hsome

theorem Located.halts {stopReluctantly : Bool} {offset : ℕ} {cs : List Char} {state : Option ℕ}
    (h : Located d w q domain) (hh : Halts d stopReluctantly q cs state) :
    Consumes d stopReluctantly w offset cs ⟨state, domain, offset⟩ := by
  refine ⟨[], cs, q, rfl, rfl, ?_, hh⟩
  rw [List.map_nil, List.append_nil]
  exact h

theorem Consumes.cons {stopReluctantly : Bool} {offset : ℕ} {c : Char} {cs : List Char}
    {m : Matcher}
    (h : Consumes d stopReluctantly (w ++ [Point.ofChar c]) (offset + c.utf8Size) cs m) :
    Consumes d stopReluctantly w offset (c :: cs) m := by
  obtain ⟨taken, left, q, rfl, hindex, hloc, hhalt⟩ := h
  refine ⟨c :: taken, left, q, rfl, ?_, ?_, hhalt⟩
  · rw [hindex, Nat.add_assoc]
    rfl
  · rw [List.append_assoc] at hloc
    exact hloc

def Passes (d : Dfa) (stopReluctantly : Bool) (q : ℕ) (p : ℤ) (t : Dfa.Transition) : Prop :=
  d.transition? q p = some t ∧ (t.reluctant && stopReluctantly && (d.reported q).isSome) = false

include hd

theorem Located.step (h : Located d w q domain) {p : ℤ} {t : Dfa.Transition}
    (ht : d.transition? q p = some t) :
    Located d (w ++ [p]) t.target ((d.update q t.target).apply domain) where
  run := by rw [h.run?_append, ht, Option.map_some]
  lt := hd.target q p t ht
  domain := by
    have hne : w ++ [p] ≠ [] := List.append_ne_nil_of_right_ne_nil w (List.cons_ne_nil p [])
    rw [h.reports.update, if_neg hne]

theorem Located.loop (h : Located d w q domain) (h0 : q ≠ Dfa.start) {p : ℤ} {t : Dfa.Transition}
    (ht : d.transition? q p = some t) (htarget : t.target = q) :
    Located d (w ++ [p]) q domain := by
  have hstep := h.step hd ht
  rw [htarget, h.reports.update_self h0] at hstep
  exact hstep

/-- On the next character a feed either halts or goes on from the state that follows. -/
theorem consume_cons (accelerate stopReluctantly : Bool) {offset : ℕ} {c : Char} {cs : List Char}
    (h : Located d w q domain) :
    (∃ state, Halts d stopReluctantly q (c :: cs) state ∧
      consume (.ofDfa d accelerate) stopReluctantly (d.rank q) domain offset (c :: cs) =
        ⟨state, domain, offset⟩) ∨
    ∃ t domain', Passes d stopReluctantly q (Point.ofChar c) t ∧
      Located d (w ++ [Point.ofChar c]) t.target domain' ∧
      consume (.ofDfa d accelerate) stopReluctantly (d.rank q) domain offset (c :: cs) =
        consume (.ofDfa d accelerate) stopReluctantly (d.rank t.target) domain'
          (offset + c.utf8Size) cs := by
  have hs := Array.getElem?_eq_getElem h.lt
  rw [consume]
  split
  case isTrue hskip =>
    obtain ⟨h0, t, ht, rfl, hreluctant⟩ := Dfa.loops_of_skips hd hs hskip
    refine .inr ⟨t, domain, ⟨ht, ?_⟩, h.loop hd h0 ht rfl, rfl⟩
    rw [hreluctant]
    rfl
  case isFalse =>
    rw [Dfa.act_ofDfa hd accelerate hs (Point.inDomain_ofChar c)]
    cases ht : d.transition? q (Point.ofChar c) with
    | none => exact .inl ⟨none, .failed ht, rfl⟩
    | some t =>
      simp only [Option.map_some, Option.getD_some, Dfa.image, Dfa.isTerminal_ofDfa accelerate hs]
      split
      case isTrue hstop =>
        rw [Bool.and_eq_true, Bool.and_eq_true] at hstop
        exact .inl ⟨_, .stopped hstop.1.2 ht hstop.1.1 hstop.2, rfl⟩
      case isFalse hgo =>
        rw [Bool.not_eq_true] at hgo
        exact .inr ⟨t, _, ⟨ht, hgo⟩, h.step hd ht, rfl⟩

theorem consume_spec (accelerate stopReluctantly : Bool) {cs : List Char} {offset : ℕ}
    (h : Located d w q domain) {m : Matcher}
    (hm : consume (.ofDfa d accelerate) stopReluctantly (d.rank q) domain offset cs = m) :
    Consumes d stopReluctantly w offset cs m := by
  induction cs generalizing w q domain offset with
  | nil =>
    subst hm
    exact h.halts .done
  | cons c cs ih =>
    rcases consume_cons hd accelerate stopReluctantly h with
      ⟨state, hhalts, heq⟩ | ⟨t, domain', -, hloc, heq⟩
    · rw [heq] at hm
      subst hm
      exact h.halts hhalts
    · rw [heq] at hm
      exact (ih hloc hm).cons

/-- A feed that goes beyond some characters has passed the next one too. -/
theorem consume_passes (accelerate stopReluctantly : Bool) {taken left : List Char} {c : Char}
    {offset : ℕ} (h : Located d w q domain)
    (hindex : offset + Offset.byteLength taken <
      (consume (.ofDfa d accelerate) stopReluctantly (d.rank q) domain offset
        (taken ++ c :: left)).index) :
    ∃ r t, d.run? Dfa.start (w ++ taken.map Point.ofChar) = some r ∧
      Passes d stopReluctantly r (Point.ofChar c) t := by
  induction taken generalizing w q domain offset with
  | nil =>
    rw [List.nil_append] at hindex
    rcases consume_cons hd accelerate stopReluctantly h with ⟨state, -, heq⟩ | ⟨t, -, ht, -⟩
    · rw [heq] at hindex
      exact absurd hindex (by simp only; omega)
    · rw [List.map_nil, List.append_nil]
      exact ⟨q, t, h.run, ht⟩
  | cons c' taken ih =>
    rw [List.cons_append] at hindex
    rcases consume_cons hd accelerate stopReluctantly h with
      ⟨state, -, heq⟩ | ⟨t, domain', -, hloc, heq⟩
    · rw [heq] at hindex
      exact absurd hindex (by simp only; omega)
    · rw [heq, Offset.byteLength, ← Nat.add_assoc] at hindex
      obtain ⟨r, u, hr, hu⟩ := ih hloc hindex
      rw [List.append_assoc] at hr
      exact ⟨r, u, hr, hu⟩

theorem finish_spec (accelerate : Bool) {m : Matcher} (h : Located d w q m.domain)
    (hm : m.state = some (d.rank q)) :
    (∃ q', Located d (w ++ [Point.endOfInput]) q' (m.finish (.ofDfa d accelerate)).domain ∧
      (m.finish (.ofDfa d accelerate)).state = some (d.rank q')) ∨
    d.transition? q Point.endOfInput = none ∧
      m.finish (.ofDfa d accelerate) = { m with state := none } := by
  have hs := Array.getElem?_eq_getElem h.lt
  simp only [finish, hm]
  rw [Dfa.act_ofDfa hd accelerate hs Point.inDomain_endOfInput]
  cases ht : d.transition? q Point.endOfInput with
  | none => exact .inr ⟨rfl, rfl⟩
  | some t => exact .inl ⟨t.target, h.step hd ht, rfl⟩

theorem given_new : Given d [] .new := by
  refine .located (located_nil hd) ?_
  rw [Dfa.rank_start hd.start]
  rfl

theorem Given.feedChars (accelerate : Bool) {m : Matcher} (h : Given d w m) (offset : ℕ)
    (cs : List Char) :
    Given d (w ++ cs.map Point.ofChar) (m.feedChars (.ofDfa d accelerate) offset cs false) := by
  cases h with
  | @located q hloc hstate =>
    obtain ⟨m', hm'⟩ : ∃ m', consume (.ofDfa d accelerate) false (d.rank q) m.domain offset cs =
      m' := ⟨_, rfl⟩
    have hfeed : m.feedChars (.ofDfa d accelerate) offset cs false = m' := by
      rw [Matcher.feedChars, hstate]
      exact hm'
    obtain ⟨taken, left, q', rfl, -, hloc', hhalts⟩ := consume_spec hd accelerate false hloc hm'
    rw [hfeed]
    generalize hstate' : m'.state = state at hhalts
    cases hhalts with
    | done =>
      rw [List.append_nil]
      exact .located hloc' hstate'
    | stopped hs => cases hs
    | failed ht =>
      refine .failed ?_ hstate'
      rw [List.map_append, List.map_cons, ← List.append_assoc, List.append_cons, Dfa.run?_append,
        hloc'.run?_append, ht]
      rfl
  | failed hrun hstate =>
    have hfeed : m.feedChars (.ofDfa d accelerate) offset cs false =
        { m with index := offset } := by
      rw [Matcher.feedChars, hstate]
    rw [hfeed]
    refine .failed ?_ hstate
    rw [Dfa.run?_append, hrun, Option.bind_none]

theorem Given.finish (accelerate : Bool) {m : Matcher} (h : Given d w m) :
    Given d (w ++ [Point.endOfInput]) (m.finish (.ofDfa d accelerate)) := by
  cases h with
  | located hloc hstate =>
    rcases finish_spec hd accelerate hloc hstate with ⟨q', hloc', hstate'⟩ | ⟨ht, hfail⟩
    · exact .located hloc' hstate'
    · rw [hfail]
      refine .failed ?_ rfl
      rw [hloc.run?_append, ht, Option.map_none]
  | failed hrun hstate =>
    rw [Matcher.finish, hstate]
    refine .failed ?_ hstate
    rw [Dfa.run?_append, hrun, Option.bind_none]

end

theorem slice_eq_ok {cs piece : List Char} {start stop : ℕ}
    (h : Offset.Between cs start stop piece) : slice cs start stop = .ok piece := by
  obtain ⟨before, after, rfl, rfl, rfl⟩ := h
  rw [slice, ← List.append_assoc, ← Offset.byteLength_append, Offset.cut?_append]
  simp only [Offset.cut?_append]

end Matcher

end PatternAutomata
