import PatternAutomata.Language
import PatternAutomata.Collections
import Mathlib.Data.Int.Notation
import Mathlib.Data.Nat.Notation

/-!
What a word leads to, point by point: silent transitions come after each point, and before the
first.
-/

set_option autoImplicit false

namespace PatternAutomata.Nfa

open SparseSet (Reaches)

def Transition.Consumes (t : Transition) (p : ℤ) : Prop :=
  ∃ s, t.points = some s ∧ s.contains p = true

variable {a : Nfa} {i j : ℕ}

theorem mem_silentTargets :
    j ∈ a.silentTargets i ↔ ∃ t ∈ a.transitions i, t.points = none ∧ t.target = j := by
  unfold silentTargets transitions
  split
  · simp only [State.silentTargets, List.mem_map, List.mem_filter, Transition.isSilent,
      Option.isNone_iff_eq_none, and_assoc]
  · simp

theorem pointsOf_marker (m : Option Marker) : pointsOf (m.toList.map .marker) = [] := by
  cases m <;> rfl

theorem Transition.Emits.pointsOf_eq {t : Transition} {xs : List Token} (h : t.Emits xs) :
    t.points = none ∧ pointsOf xs = [] ∨ ∃ p, t.Consumes p ∧ pointsOf xs = [p] := by
  cases h with
  | silent h => exact .inl ⟨h, pointsOf_marker t.marker⟩
  | consume h hp => exact .inr ⟨_, ⟨_, h, hp⟩, rfl⟩

theorem path_of_reaches (h : Reaches a.silentTargets i j) :
    ∃ ts, AnyPath a i ts j ∧ pointsOf ts = [] := by
  induction h with
  | refl i => exact ⟨[], .refl i, rfl⟩
  | step hb _ ih =>
    obtain ⟨t, ht, hs, rfl⟩ := mem_silentTargets.1 hb
    obtain ⟨ts, hp, hn⟩ := ih
    have he : t.Emits _ := .silent hs
    refine ⟨_, .step ht trivial he hp, ?_⟩
    rw [pointsOf_append, hn, List.append_nil, pointsOf_marker]

theorem reaches_of_path {ts : List Token} (h : AnyPath a i ts j) (hn : pointsOf ts = []) :
    Reaches a.silentTargets i j := by
  induction h with
  | refl i => exact .refl i
  | step ht _ he _ ih =>
    rw [pointsOf_append, List.append_eq_nil_iff] at hn
    rcases he.pointsOf_eq with ⟨hs, -⟩ | ⟨p, -, hp⟩
    · exact .step (mem_silentTargets.2 ⟨_, ht, hs, rfl⟩) (ih hn.2)
    · rw [hp] at hn
      cases hn.1

theorem reachedOn_nil : ReachedOn a [] j ↔ Reaches a.silentTargets start j := by
  constructor
  · rintro ⟨ts, hp, hn⟩
    exact reaches_of_path hp hn
  · intro h
    obtain ⟨ts, hp, hn⟩ := path_of_reaches h
    exact ⟨ts, hp, hn⟩

/-- A path that consumes `p` last, cut at that transition. -/
theorem split_last {ts : List Token} {w : List ℤ} {p : ℤ} (h : AnyPath a i ts j)
    (hw : pointsOf ts = w ++ [p]) :
    ∃ k us, AnyPath a i us k ∧ pointsOf us = w ∧
      ∃ t ∈ a.transitions k, t.Consumes p ∧ Reaches a.silentTargets t.target j := by
  induction h generalizing w with
  | refl i => exact absurd hw.symm (List.append_ne_nil_of_right_ne_nil w (List.cons_ne_nil p []))
  | step ht _ he hrest ih =>
    rw [pointsOf_append] at hw
    rcases he.pointsOf_eq with ⟨-, hx⟩ | ⟨q, hq, hx⟩
    · rw [hx, List.nil_append] at hw
      obtain ⟨k, us, hp, hu, rest⟩ := ih hw
      refine ⟨k, _, .step ht trivial he hp, ?_, rest⟩
      rw [pointsOf_append, hx, hu, List.nil_append]
    · rw [hx, List.singleton_append] at hw
      cases w with
      | nil =>
        obtain ⟨rfl, hn⟩ := List.cons.inj hw
        exact ⟨_, [], .refl _, rfl, _, ht, hq, reaches_of_path hrest hn⟩
      | cons q' w =>
        obtain ⟨rfl, hys⟩ := List.cons.inj hw
        obtain ⟨k, us, hp, hu, rest⟩ := ih hys
        refine ⟨k, _, .step ht trivial he hp, ?_, rest⟩
        rw [pointsOf_append, hx, hu, List.singleton_append]

theorem reachedOn_append_singleton {w : List ℤ} {p : ℤ} :
    ReachedOn a (w ++ [p]) j ↔ ∃ i, ReachedOn a w i ∧
      ∃ t ∈ a.transitions i, t.Consumes p ∧ Reaches a.silentTargets t.target j := by
  constructor
  · rintro ⟨ts, hp, hw⟩
    obtain ⟨i, us, hu, hus, rest⟩ := split_last hp hw
    exact ⟨i, ⟨us, hu, hus⟩, rest⟩
  · rintro ⟨i, ⟨us, hu, rfl⟩, t, ht, ⟨s, hs, hp⟩, hr⟩
    obtain ⟨vs, hv, hn⟩ := path_of_reaches hr
    refine ⟨_, Path.append hu (.step ht trivial (.consume hs hp) hv), ?_⟩
    rw [pointsOf_append, pointsOf_append, hn, List.append_nil]
    rfl

theorem reachedOn_start : ReachedOn a [] start := reachedOn_nil.2 (.refl start)

end PatternAutomata.Nfa
