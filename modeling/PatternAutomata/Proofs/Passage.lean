import PatternAutomata.Language
import Mathlib.Computability.Language

/-!
Passages through a part of an automaton. The part is entered by one of some transitions and left by
one of some others, and what is met in between forms a language. Passages are put together as
fragments are: one after another, side by side, and in a loop.
-/

set_option autoImplicit false

namespace PatternAutomata.Nfa

inductive Walk (a : Nfa) (allowed : ℕ → Transition → Prop) : ℕ → ℕ → List Token → ℕ → Prop
  | refl (i : ℕ) : Walk a allowed 0 i [] i
  | step {k i j : ℕ} {t : Transition} {xs ys : List Token} (ht : t ∈ a.transitions i)
    (ha : allowed i t) (hx : t.Emits xs) (hw : Walk a allowed k t.target ys j) :
    Walk a allowed (k + 1) i (xs ++ ys) j

open scoped Computability

theorem mem_kstar_iff_pow {α : Type} {l : Language α} {w : List α} :
    w ∈ l∗ ↔ ∃ n : ℕ, w ∈ l ^ n := by
  rw [Language.kstar_eq_iSup_pow, Language.mem_iSup]

def Transition.emitted (t : Transition) : Language Token := {xs | t.Emits xs}

/-- `Leaves a allowed j out k ts` says that a walk to `j`, of `k` steps after the first, takes a
transition of `out` first and meets `ts`. -/
def Leaves (a : Nfa) (allowed : ℕ → Transition → Prop) (j : ℕ) (out : List Transition) (k : ℕ)
    (ts : List Token) : Prop :=
  ∃ t ∈ out, ∃ xs ∈ t.emitted, ∃ ys, ts = xs ++ ys ∧ Walk a allowed k t.target ys j

/-- Whatever enters by `entry` on its way to `j` meets a word of `l` and leaves by `out`, and every
word of `l` can be met so. -/
structure Passage (a : Nfa) (allowed : ℕ → Transition → Prop) (j : ℕ)
    (entry out : List Transition) (l : Language Token) : Prop where
  sound : ∀ {k ts}, Leaves a allowed j entry k ts →
    ∃ m ≤ k, ∃ xs ∈ l, ∃ ys, ts = xs ++ ys ∧ Leaves a allowed j out m ys
  complete : ∀ {xs}, xs ∈ l → ∀ {k ys}, Leaves a allowed j out k ys →
    ∃ m, Leaves a allowed j entry m (xs ++ ys)

theorem Walk.path {a : Nfa} {allowed : ℕ → Transition → Prop} {k i j : ℕ} {ts : List Token}
    (h : Walk a allowed k i ts j) : Path a allowed i ts j := by
  induction h with
  | refl i => exact .refl i
  | step ht ha hx _ ih => exact .step ht ha hx ih

theorem Path.walk {a : Nfa} {allowed : ℕ → Transition → Prop} {i j : ℕ} {ts : List Token}
    (h : Path a allowed i ts j) : ∃ k, Walk a allowed k i ts j := by
  induction h with
  | refl i => exact ⟨0, .refl i⟩
  | step ht ha hx _ ih =>
    obtain ⟨k, hk⟩ := ih
    exact ⟨k + 1, .step ht ha hx hk⟩

theorem emitted_silent (i : ℕ) : (Transition.silent i).emitted = 1 := by
  apply Language.ext
  intro xs
  constructor
  · intro h
    cases h with
    | silent _ => rfl
    | consume h _ => cases h
  · rintro rfl
    exact .silent (t := .silent i) rfl

theorem emitted_marking (m : Marker) (i : ℕ) :
    (Transition.marking m i).emitted = {[.marker m]} := by
  apply Language.ext
  intro xs
  constructor
  · intro h
    cases h with
    | silent _ => rfl
    | consume h _ => cases h
  · rintro rfl
    exact .silent (t := .marking m i) rfl

theorem emitted_consuming (s : PointSet) (r : Bool) (i : ℕ) :
    (Transition.consuming s r i).emitted = {w | ∃ p, s.contains p = true ∧ w = [.point p r]} := by
  apply Language.ext
  intro xs
  constructor
  · intro h
    cases h with
    | silent h => cases h
    | consume h hp =>
      cases h
      exact ⟨_, hp, rfl⟩
  · rintro ⟨p, hp, rfl⟩
    exact .consume (t := .consuming s r i) rfl hp

section

variable {a : Nfa} {allowed : ℕ → Transition → Prop} {j : ℕ}

theorem leaves_silent {i k : ℕ} {ts : List Token} :
    Leaves a allowed j [.silent i] k ts ↔ Walk a allowed k i ts j := by
  constructor
  · rintro ⟨t, ht, xs, hx, ys, rfl, hw⟩
    obtain rfl := List.mem_singleton.1 ht
    rw [emitted_silent] at hx
    obtain rfl := hx
    exact hw
  · intro hw
    refine ⟨_, List.mem_singleton_self _, [], ?_, ts, rfl, hw⟩
    rw [emitted_silent]
    rfl

theorem leaves_append {es fs : List Transition} {k : ℕ} {ts : List Token} :
    Leaves a allowed j (es ++ fs) k ts ↔
      Leaves a allowed j es k ts ∨ Leaves a allowed j fs k ts := by
  simp only [Leaves, List.mem_append, or_and_right, exists_or]

theorem leaves_cons {t : Transition} {out : List Transition} {k : ℕ} {ts : List Token} :
    Leaves a allowed j (t :: out) k ts ↔
      Leaves a allowed j [t] k ts ∨ Leaves a allowed j out k ts :=
  @leaves_append a allowed j [t] out k ts

variable {entry mid out : List Transition} {l m : Language Token}

theorem Passage.refl : Passage a allowed j out out 1 where
  sound h := ⟨_, le_rfl, [], rfl, _, rfl, h⟩
  complete := by
    rintro xs rfl k ys h
    exact ⟨k, h⟩

theorem Passage.trans (h : Passage a allowed j entry mid l) (g : Passage a allowed j mid out m) :
    Passage a allowed j entry out (l * m) where
  sound hl := by
    obtain ⟨k', hk', xs, hx, ys, rfl, hm⟩ := h.sound hl
    obtain ⟨k'', hk'', us, hu, vs, rfl, ho⟩ := g.sound hm
    refine ⟨k'', hk''.trans hk', xs ++ us, Language.append_mem_mul hx hu, vs, ?_, ho⟩
    rw [List.append_assoc]
  complete := by
    rintro _ ⟨xs, hx, us, hu, rfl⟩ k ys ho
    obtain ⟨k', hm⟩ := g.complete hu ho
    obtain ⟨k'', hl⟩ := h.complete hx hm
    refine ⟨k'', ?_⟩
    rw [List.append_assoc]
    exact hl

theorem Passage.add {entry' : List Transition} (h : Passage a allowed j entry out l)
    (g : Passage a allowed j entry' out m) :
    Passage a allowed j (entry ++ entry') out (l + m) where
  sound hl := by
    rcases leaves_append.1 hl with hl | hl
    · obtain ⟨k, hk, xs, hx, rest⟩ := h.sound hl
      exact ⟨k, hk, xs, .inl hx, rest⟩
    · obtain ⟨k, hk, xs, hx, rest⟩ := g.sound hl
      exact ⟨k, hk, xs, .inr hx, rest⟩
  complete := by
    rintro xs (hx | hx) k ys ho
    · obtain ⟨k', hl⟩ := h.complete hx ho
      exact ⟨k', leaves_append.2 (.inl hl)⟩
    · obtain ⟨k', hl⟩ := g.complete hx ho
      exact ⟨k', leaves_append.2 (.inr hl)⟩

theorem Passage.emitted (t : Transition) :
    Passage a allowed j [t] [.silent t.target] t.emitted where
  sound := by
    rintro k _ ⟨t', ht, xs, hx, ys, rfl, hw⟩
    obtain rfl := List.mem_singleton.1 ht
    exact ⟨k, le_rfl, xs, hx, ys, rfl, leaves_silent.2 hw⟩
  complete hx k ys ho :=
    ⟨k, t, List.mem_singleton_self t, _, hx, ys, rfl, leaves_silent.1 ho⟩

variable (hj : (a.domain? j).isSome) (hf : ∀ i t, a.domain? i = none → allowed i t)

theorem transitions_of_getElem? {i : ℕ} {s : State} (h : a.states[i]? = some s) :
    a.transitions i = s.transitions := by
  simp only [transitions, h]

theorem domain?_of_getElem? {i : ℕ} {s : State} (h : a.states[i]? = some s) :
    a.domain? i = s.domain := by
  simp only [domain?, h, Option.bind_some]

include hj in
theorem Walk.leaves {i k : ℕ} {ts : List Token} (hi : a.states[i]? = some ⟨none, out⟩)
    (h : Walk a allowed k i ts j) : ∃ m < k, Leaves a allowed j out m ts := by
  cases h with
  | refl i =>
    rw [domain?_of_getElem? hi] at hj
    cases hj
  | step ht ha hx hw =>
    rw [transitions_of_getElem? hi] at ht
    exact ⟨_, Nat.lt_succ_self _, _, ht, _, hx, _, rfl, hw⟩

include hf in
theorem Leaves.walk {i k : ℕ} {ts : List Token} (hi : a.states[i]? = some ⟨none, out⟩)
    (h : Leaves a allowed j out k ts) : Walk a allowed (k + 1) i ts j := by
  obtain ⟨t, ht, xs, hx, ys, rfl, hw⟩ := h
  refine .step ?_ (hf i t (domain?_of_getElem? hi)) hx hw
  rw [transitions_of_getElem? hi]
  exact ht

include hj hf

theorem Passage.state {i : ℕ} (hi : a.states[i]? = some ⟨none, out⟩) :
    Passage a allowed j [.silent i] out 1 where
  sound hl := by
    obtain ⟨m, hm, ho⟩ := (leaves_silent.1 hl).leaves hj hi
    exact ⟨m, hm.le, [], rfl, _, rfl, ho⟩
  complete := by
    rintro xs rfl k ys ho
    exact ⟨k + 1, leaves_silent.2 (ho.walk hf hi)⟩

/-- A state that the part behind it leads back to. -/
theorem Passage.loop {i e : ℕ} (hi : a.states[i]? = some ⟨none, .silent e :: out⟩)
    (h : Passage a allowed j [.silent e] [.silent i] l) :
    Passage a allowed j [.silent i] out l∗ where
  sound {k ts} hl := by
    simp only [mem_kstar_iff_pow]
    induction k using Nat.strong_induction_on generalizing ts with
    | h k ih =>
      obtain ⟨m, hm, ho⟩ := (leaves_silent.1 hl).leaves hj hi
      rcases leaves_cons.1 ho with hb | ho
      · obtain ⟨m', hm', xs, hx, ys, rfl, hl'⟩ := h.sound hb
        obtain ⟨k', hk', us, ⟨n, hu⟩, vs, rfl, hr⟩ := ih m' (by omega) hl'
        refine ⟨k', by omega, xs ++ us, ⟨n + 1, ?_⟩, vs, (List.append_assoc ..).symm, hr⟩
        rw [pow_succ']
        exact Language.append_mem_mul hx hu
      · exact ⟨m, hm.le, [], ⟨0, rfl⟩, ts, rfl, ho⟩
  complete {xs} hx k ys ho := by
    obtain ⟨n, hx⟩ := mem_kstar_iff_pow.1 hx
    induction n generalizing xs with
    | zero =>
      obtain rfl := hx
      exact ⟨k + 1, leaves_silent.2 ((leaves_cons.2 (.inr ho)).walk hf hi)⟩
    | succ n ih =>
      rw [pow_succ'] at hx
      obtain ⟨us, hu, vs, hv, rfl⟩ := hx
      obtain ⟨k', hl⟩ := ih (mem_kstar_iff_pow.2 ⟨n, hv⟩) hv
      obtain ⟨m, hb⟩ := h.complete hu hl
      refine ⟨m + 1, leaves_silent.2 ?_⟩
      rw [List.append_assoc]
      exact (leaves_cons.2 (.inl hb)).walk hf hi

end

end PatternAutomata.Nfa
