import PatternAutomata.Proofs.Which

/-!
Where a feed ends that may stop reluctantly, told by the automaton with silent transitions: before
the first character that nothing consumes, or that an accepting automaton consumes by reluctant
transitions only.
-/

set_option autoImplicit false

namespace PatternAutomata

namespace Nfa

def Continues (a : Nfa) (w : List ℤ) (p : ℤ) : Prop :=
  ∃ j t, ReachedOn a w j ∧ t ∈ a.transitions j ∧ t.Consumes p

def OnlyReluctantly (a : Nfa) (w : List ℤ) (p : ℤ) : Prop :=
  ∀ j t, ReachedOn a w j → t ∈ a.transitions j → t.Consumes p → t.reluctant = true

def Accepts (a : Nfa) (w : List ℤ) : Prop := ∃ j i, ReachedOn a w j ∧ a.domain? j = some i

/-- Why a feed ends after the points `w`, with some characters left, and whether it is valid then.
The cases exclude each other: what nothing consumes is not taken to be consumed reluctantly. -/
inductive Ends (a : Nfa) (w : List ℤ) : (left : List Char) → (valid : Bool) → Prop
  | done : Ends a w [] true
  | stuck {c : Char} {cs : List Char} (h : ¬ a.Continues w (Point.ofChar c)) :
    Ends a w (c :: cs) false
  | reluctant {c : Char} {cs : List Char} (haccepts : a.Accepts w)
    (hcontinues : a.Continues w (Point.ofChar c))
    (hreluctant : a.OnlyReluctantly w (Point.ofChar c)) : Ends a w (c :: cs) true

/-- A feed of a text from `start` up to `stop` may end at the boundary `k`. -/
def EndsAt (a : Nfa) (text : String) (start stop k : ℕ) (valid : Bool) : Prop :=
  ∃ read left, Offset.Between text.toList start k read ∧ Offset.Between text.toList k stop left ∧
    a.Ends (read.map Point.ofChar) left valid

/-- For whether there is a reason to end, though, it makes no difference. -/
theorem exists_ends_cons_iff {a : Nfa} {w : List ℤ} {c : Char} {cs : List Char} :
    (∃ valid, a.Ends w (c :: cs) valid) ↔
      ¬ a.Continues w (Point.ofChar c) ∨ a.Accepts w ∧ a.OnlyReluctantly w (Point.ofChar c) := by
  constructor
  · rintro ⟨_, hends⟩
    cases hends with
    | stuck hstuck => exact .inl hstuck
    | reluctant haccepts _ hreluctant => exact .inr ⟨haccepts, hreluctant⟩
  · rintro (hstuck | ⟨haccepts, hreluctant⟩)
    · exact ⟨false, .stuck hstuck⟩
    · by_cases hcontinues : a.Continues w (Point.ofChar c)
      · exact ⟨true, .reluctant haccepts hcontinues hreluctant⟩
      · exact ⟨false, .stuck hcontinues⟩

end Nfa

namespace Subset

open Nfa (InRange ReachedOn)

section

variable {a : Nfa} {limit : Option ℕ} {d : Dfa} (ha : InRange a) (hd : a.determinize limit = .ok d)
  {w : List ℤ} {q : ℕ} (hq : d.run? Dfa.start w = some q)

include ha hd hq

theorem exists_isKey : ∃ keys key, Represents a d keys ∧ keys[q]? = some key ∧
    IsKey a (ReachedOn a w) key := by
  obtain ⟨keys, hr⟩ := exists_keys hd
  obtain ⟨key, hkey, hk⟩ := hr.exists_isKey ha hq
  exact ⟨keys, key, hr, hkey, hk⟩

theorem accepts_iff : (d.reported q).isSome = true ↔ a.Accepts w := by
  obtain ⟨keys, key, hr, hkey, hk⟩ := exists_isKey ha hd hq
  obtain ⟨s, hs, hdomains, -⟩ := hr.state q key hkey
  rw [Dfa.reported_eq hs, Dfa.State.domain?, hdomains, List.isSome_head?, ne_eq,
    ← List.isEmpty_iff, Bool.not_eq_true, List.isEmpty_eq_false_iff_exists_mem]
  constructor
  · rintro ⟨i, hi⟩
    obtain ⟨j, hj, hdomain⟩ := hk.mem_domainsOf.1 hi
    exact ⟨j, i, hj, hdomain⟩
  · rintro ⟨j, i, hj, hdomain⟩
    exact ⟨i, hk.mem_domainsOf.2 ⟨j, hj, hdomain⟩⟩

variable {p : ℤ} (hp : Point.InDomain p)

include hp

theorem continues_iff : (∃ t, d.transition? q p = some t) ↔ a.Continues w p := by
  obtain ⟨keys, key, hr, hkey, hk⟩ := exists_isKey ha hd hq
  rcases hr.transition? hkey hp with ⟨ho, ht⟩ | ⟨ho, t, ht, -⟩
  · refine ⟨fun ⟨t, h⟩ => (by rw [ht] at h; cases h), ?_⟩
    rintro ⟨j, u, hj, hu, s, hs, hc⟩
    have hmem := hk.mem_offered.2 ⟨j, hj, u, hu, s, hs, hc, rfl⟩
    rw [ho] at hmem
    cases hmem
  · refine ⟨fun _ => ?_, fun _ => ⟨t, ht⟩⟩
    obtain ⟨o, hmem⟩ := List.exists_mem_of_ne_nil _ ho
    obtain ⟨j, hj, u, hu, s, hs, hc, -⟩ := hk.mem_offered.1 hmem
    exact ⟨j, u, hj, hu, s, hs, hc⟩

theorem onlyReluctantly_iff {t : Dfa.Transition} (ht : d.transition? q p = some t) :
    t.reluctant = true ↔ a.OnlyReluctantly w p := by
  obtain ⟨keys, key, hr, hkey, hk⟩ := exists_isKey ha hd hq
  rcases hr.transition? hkey hp with ⟨-, hnone⟩ | ⟨-, u, hu, hcombines⟩
  · cases ht.symm.trans hnone
  · cases ht.symm.trans hu
    rw [hcombines.reluctant, hk.all_reluctant]
    rfl

end

section

variable {a : Nfa} {limit : Option ℕ} {d : Dfa} (ha : InRange a) (hd : a.determinize limit = .ok d)
  {w : List ℤ} {q : ℕ} (hq : d.run? Dfa.start w = some q)

include ha hd hq

theorem ends_of_halts {stopReluctantly : Bool} {left : List Char} {state : Option ℕ}
    (h : Matcher.Halts d stopReluctantly q left state) : a.Ends w left state.isSome := by
  cases h with
  | done => exact .done
  | stopped hs ht hr hreported =>
    exact .reluctant ((accepts_iff ha hd hq).1 hreported)
      ((continues_iff ha hd hq (Point.inDomain_ofChar _)).1 ⟨_, ht⟩)
      ((onlyReluctantly_iff ha hd hq (Point.inDomain_ofChar _) ht).1 hr)
  | failed ht =>
    refine .stuck fun hcontinues => ?_
    obtain ⟨t, ht'⟩ := (continues_iff ha hd hq (Point.inDomain_ofChar _)).2 hcontinues
    rw [ht] at ht'
    cases ht'

theorem not_ends_of_passes {c : Char} {cs : List Char} {t : Dfa.Transition}
    (h : Matcher.Passes d true q (Point.ofChar c) t) : ¬ ∃ valid, a.Ends w (c :: cs) valid := by
  obtain ⟨ht, hpass⟩ := h
  rw [Nfa.exists_ends_cons_iff]
  rintro (hstuck | ⟨haccepts, hreluctant⟩)
  · exact hstuck ((continues_iff ha hd hq (Point.inDomain_ofChar c)).1 ⟨t, ht⟩)
  · rw [(onlyReluctantly_iff ha hd hq (Point.inDomain_ofChar c) ht).2 hreluctant,
      (accepts_iff ha hd hq).2 haccepts] at hpass
    cases hpass

end

/-- From the start state on, a feed ends at the first boundary at which it has a reason to. -/
theorem feedChars_endsAt {a : Nfa} {limit : Option ℕ} {d : Dfa} (ha : InRange a)
    (hd : a.determinize limit = .ok d) (accelerate : Bool) {m : Matcher}
    (hstate : m.state = some Program.start) (hdomain : m.domain = none) {text : String}
    {start stop : ℕ} {piece : List Char} (hpiece : Offset.Between text.toList start stop piece)
    {m' : Matcher} (hm' : m.feedChars (.ofDfa d accelerate) start piece true = m') :
    IsLeast {k | ∃ valid, a.EndsAt text start stop k valid} m'.index ∧
      a.EndsAt text start stop m'.index m'.isValid := by
  have hrange := inRange_of_determinize hd
  have hlocated := Matcher.located_nil hrange
  have hconsume : Matcher.consume (.ofDfa d accelerate) true (d.rank Dfa.start) none start piece =
      m' := by
    rw [Dfa.rank_start hrange.start, ← hm', Matcher.feedChars, hstate, hdomain]
    rfl
  obtain ⟨taken, left, q, rfl, hindex, hloc, hhalts⟩ :=
    Matcher.consume_spec hrange accelerate true hlocated hconsume
  obtain ⟨htaken, hleft⟩ := hpiece.split
  have hends : a.EndsAt text start stop m'.index m'.isValid := by
    rw [hindex]
    exact ⟨taken, left, htaken, hleft, ends_of_halts ha hd hloc.run hhalts⟩
  refine ⟨⟨⟨_, hends⟩, ?_⟩, hends⟩
  rintro k ⟨valid, read, rest, hread, hrest, hend⟩
  -- A boundary before the index is one that the feed went beyond.
  by_contra hlt
  have hsplit : taken ++ left = read ++ rest := hpiece.unique (hread.join hrest)
  obtain ⟨before, after, -, -, hk⟩ := hread
  cases rest with
  | nil =>
    have hlength := congrArg Offset.byteLength hsplit
    rw [List.append_nil, Offset.byteLength_append] at hlength
    omega
  | cons c rest =>
    rw [hsplit] at hconsume
    have hindex' : start + Offset.byteLength read < (Matcher.consume (.ofDfa d accelerate) true
        (d.rank Dfa.start) none start (read ++ c :: rest)).index := by
      rw [hconsume]
      omega
    obtain ⟨r, t, hrun, hpasses⟩ := Matcher.consume_passes hrange accelerate true hlocated hindex'
    exact not_ends_of_passes ha hd hrun hpasses ⟨valid, hend⟩

end Subset

namespace Builder

/-- A feed that may stop reluctantly, from the start, ends at the first boundary at which nothing is
left, nothing consumes the next character, or that is consumed only reluctantly where some pattern
accepts; and only where nothing consumes the next character is the matcher not valid any more. -/
theorem feed_reluctantly {b : Builder} {nodes : List Node} {p : Program}
    (h : b.ofNodes nodes = .ok p) {m : Matcher} (hm : m = .new ∨ ∃ x : Matcher, m = x.restart)
    {text : String} {start stop : ℕ}
    (htext : ∃ piece, Offset.Between text.toList start stop piece) :
    ∃ a m', Nfa.build b.limits nodes = .ok a ∧ m.feed p text start stop true = .ok m' ∧
      IsLeast {k | ∃ valid, a.EndsAt text start stop k valid} m'.index ∧
      a.EndsAt text start stop m'.index m'.isValid := by
  obtain ⟨a, ha, -⟩ := ok_of_bind h
  have hbuild := ok_of_mapError ha
  obtain ⟨rfl, -, -⟩ := Nfa.build_eq_ok hbuild
  obtain ⟨-, d, hd, rfl⟩ := ofNodes_eq_ok h
  obtain ⟨piece, hpiece⟩ := htext
  have hstart : m.state = some Program.start ∧ m.domain = none := by
    rcases hm with rfl | ⟨x, rfl⟩
    · exact ⟨rfl, rfl⟩
    · exact ⟨rfl, rfl⟩
  refine ⟨_, m.feedChars (.ofDfa d b.options.accelerates) start piece true, hbuild, ?_,
    Subset.feedChars_endsAt (Nfa.inRange_ofNodes nodes) hd _ hstart.1 hstart.2 hpiece rfl⟩
  rw [Matcher.feed, Matcher.slice_eq_ok hpiece]
  rfl

/-- After one of several letters, only the reluctant pattern could go on. -/
theorem feed_reluctantly_letters :
    ∃ p a m', new.ofNodes [.repeated (.text ['a']) 1 none true] = .ok p ∧
      Nfa.build new.limits [.repeated (.text ['a']) 1 none true] = .ok a ∧
      Matcher.new.feed p "éaaa" 2 5 true = .ok m' ∧ m'.index = 3 ∧ m'.isValid = true ∧
      IsLeast {k | ∃ valid, a.EndsAt "éaaa" 2 5 k valid} 3 := by
  have hrun : (new.ofNodes [.repeated (.text ['a']) 1 none true]).toOption.bind
      (fun p => (Matcher.new.feed p "éaaa" 2 5 true).toOption.map
        fun m => (m.index, m.isValid)) = some (3, true) := by decide +kernel
  cases hp : new.ofNodes [.repeated (.text ['a']) 1 none true] with
  | error e =>
    rw [hp] at hrun
    cases hrun
  | ok p =>
    have hpiece : ∃ piece, Offset.Between "éaaa".toList 2 5 piece :=
      ⟨['a', 'a', 'a'], ['é'], [], by decide, by decide, by decide⟩
    obtain ⟨a, m', ha, hm', hleast, -⟩ := feed_reluctantly hp (.inl rfl) hpiece
    rw [hp] at hrun
    simp only [Except.toOption, Option.bind_some, hm', Option.map_some, Option.some.injEq,
      Prod.mk.injEq] at hrun
    obtain ⟨hindex, hvalid⟩ := hrun
    rw [hindex] at hleast
    exact ⟨p, a, m', rfl, ha, hm', hindex, hvalid, hleast⟩

end Builder

end PatternAutomata
