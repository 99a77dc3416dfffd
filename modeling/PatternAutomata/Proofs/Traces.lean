import PatternAutomata.Language

/-!
The traces of a pattern: those of a repetition as a product, the words that they stand for, and the
nesting of groups on them.
-/

set_option autoImplicit false

namespace PatternAutomata.Node

open Nfa (Token pointsOf pointsOf_append)
open scoped Computability

section

variable {α : Type} (l m : Language α)

def upTo (n : ℕ) : Language α := {w | ∃ k ≤ n, w ∈ l ^ k}

theorem upTo_zero : upTo l 0 = 1 := by
  apply Language.ext
  intro w
  constructor
  · rintro ⟨k, hk, h⟩
    obtain rfl := Nat.le_zero.1 hk
    exact h
  · intro h
    exact ⟨0, le_rfl, h⟩

theorem upTo_succ (n : ℕ) : upTo l (n + 1) = l * upTo l n + 1 := by
  apply Language.ext
  intro w
  constructor
  · rintro ⟨k, hk, h⟩
    cases k with
    | zero => exact .inr h
    | succ k =>
      rw [pow_succ'] at h
      obtain ⟨x, hx, y, hy, rfl⟩ := h
      exact .inl (Language.append_mem_mul hx ⟨k, by omega, hy⟩)
  · rintro (⟨x, hx, y, ⟨k, hk, hy⟩, rfl⟩ | h)
    · refine ⟨k + 1, by omega, ?_⟩
      rw [pow_succ']
      exact Language.append_mem_mul hx hy
    · exact ⟨0, Nat.zero_le _, h⟩

theorem unrolled_none (min : ℕ) : unrolled l m min none = l ^ min * m∗ := by
  rw [Language.kstar_eq_iSup_pow, Language.mul_iSup]
  apply Language.ext
  intro w
  rw [Language.mem_iSup]
  constructor
  · rintro ⟨k, -, h⟩
    exact ⟨k, h⟩
  · rintro ⟨k, h⟩
    refine ⟨k, ?_, h⟩
    intro _ h
    cases h

theorem unrolled_some {min max : ℕ} (h : min ≤ max) :
    unrolled l m min (some max) = l ^ min * upTo m (max - min) := by
  apply Language.ext
  intro w
  constructor
  · rintro ⟨k, hk, x, hx, y, hy, rfl⟩
    have := hk max rfl
    exact Language.append_mem_mul hx ⟨k, by omega, hy⟩
  · rintro ⟨x, hx, y, ⟨k, hk, hy⟩, rfl⟩
    refine ⟨k, ?_, Language.append_mem_mul hx hy⟩
    rintro _ ⟨⟩
    omega

end

theorem unrolled_self {α : Type} (l : Language α) (min : ℕ) (max : Option ℕ) :
    unrolled l l min max = counted l min max := by
  apply Language.ext
  intro w
  constructor
  · rintro ⟨k, hk, hw⟩
    rw [← pow_add] at hw
    exact ⟨min + k, Nat.le_add_right min k, hk, hw⟩
  · rintro ⟨k, hmin, hmax, hw⟩
    obtain ⟨k, rfl⟩ := Nat.exists_eq_add_of_le hmin
    rw [pow_add] at hw
    exact ⟨k, hmax, hw⟩

/-- A relation between words that takes them apart where they are put together. -/
structure Homomorphic {α β : Type} (R : List α → List β → Prop) : Prop where
  nil (w : List β) : R [] w ↔ w = []
  append (u v : List α) (w : List β) : R (u ++ v) w ↔ ∃ x y, R u x ∧ R v y ∧ x ++ y = w

section

variable {α β : Type} {R : List α → List β → Prop}

def related (R : List α → List β → Prop) (l : Language α) : Language β := {w | ∃ u ∈ l, R u w}

theorem related_one (h : Homomorphic R) : related R 1 = 1 := by
  apply Language.ext
  intro w
  constructor
  · rintro ⟨_, rfl, hw⟩
    exact (h.nil w).1 hw
  · rintro rfl
    exact ⟨[], rfl, (h.nil []).2 rfl⟩

theorem related_add (l m : Language α) : related R (l + m) = related R l + related R m := by
  apply Language.ext
  intro w
  constructor
  · rintro ⟨u, hu | hu, hw⟩
    · exact .inl ⟨u, hu, hw⟩
    · exact .inr ⟨u, hu, hw⟩
  · rintro (⟨u, hu, hw⟩ | ⟨u, hu, hw⟩)
    · exact ⟨u, .inl hu, hw⟩
    · exact ⟨u, .inr hu, hw⟩

theorem related_mul (h : Homomorphic R) (l m : Language α) :
    related R (l * m) = related R l * related R m := by
  apply Language.ext
  intro w
  constructor
  · rintro ⟨_, ⟨u, hu, v, hv, rfl⟩, hw⟩
    obtain ⟨x, y, hx, hy, rfl⟩ := (h.append u v w).1 hw
    exact Language.append_mem_mul ⟨u, hu, hx⟩ ⟨v, hv, hy⟩
  · rintro ⟨x, ⟨u, hu, hx⟩, y, ⟨v, hv, hy⟩, rfl⟩
    exact ⟨u ++ v, Language.append_mem_mul hu hv, (h.append u v _).2 ⟨x, y, hx, hy, rfl⟩⟩

theorem related_pow (h : Homomorphic R) (l : Language α) (n : ℕ) :
    related R (l ^ n) = related R l ^ n := by
  induction n with
  | zero => exact related_one h
  | succ n ih => rw [pow_succ, pow_succ, related_mul h, ih]

theorem related_unrolled (h : Homomorphic R) (l m : Language α) (min : ℕ) (max : Option ℕ) :
    related R (unrolled l m min max) = unrolled (related R l) (related R m) min max := by
  have hpow : ∀ k, related R (l ^ min * m ^ k) = related R l ^ min * related R m ^ k := by
    intro k
    rw [related_mul h, related_pow h, related_pow h]
  apply Language.ext
  intro w
  constructor
  · rintro ⟨u, ⟨k, hk, hu⟩, hw⟩
    refine ⟨k, hk, ?_⟩
    rw [← hpow]
    exact ⟨u, hu, hw⟩
  · rintro ⟨k, hk, hw⟩
    rw [← hpow] at hw
    obtain ⟨u, hu, hw⟩ := hw
    exact ⟨u, ⟨k, hk, hu⟩, hw⟩

def Selects (f : α → Option β) (u : List α) (w : List β) : Prop := u.filterMap f = w

theorem homomorphic_selects (f : α → Option β) : Homomorphic (Selects f) where
  nil w := eq_comm
  append u v w := by
    constructor
    · rintro rfl
      exact ⟨_, _, rfl, rfl, List.filterMap_append.symm⟩
    · rintro ⟨_, _, rfl, rfl, rfl⟩
      exact List.filterMap_append

end

def Keeps {α : Type} (P : α → Prop) (u w : List α) : Prop := u = w ∧ ∀ x ∈ u, P x

theorem homomorphic_keeps {α : Type} (P : α → Prop) : Homomorphic (Keeps P) where
  nil w := by
    constructor
    · rintro ⟨rfl, -⟩
      rfl
    · rintro rfl
      exact ⟨rfl, by simp⟩
  append u v w := by
    constructor
    · rintro ⟨rfl, h⟩
      obtain ⟨hu, hv⟩ := List.forall_mem_append.1 h
      exact ⟨u, v, ⟨rfl, hu⟩, ⟨rfl, hv⟩, rfl⟩
    · rintro ⟨_, _, ⟨rfl, hu⟩, ⟨rfl, hv⟩, rfl⟩
      exact ⟨rfl, List.forall_mem_append.2 ⟨hu, hv⟩⟩

theorem mem_related_keeps {α : Type} {P : α → Prop} {l : Language α} {w : List α}
    (hw : ∀ x ∈ w, P x) : w ∈ related (Keeps P) l ↔ w ∈ l := by
  constructor
  · rintro ⟨_, hl, rfl, -⟩
    exact hl
  · intro hl
    exact ⟨w, hl, rfl, hw⟩

def consumed (l : Language Token) : Language ℤ := pointsOf '' l

theorem consumed_one : consumed 1 = 1 := related_one (homomorphic_selects Token.point?)

theorem consumed_add (l m : Language Token) : consumed (l + m) = consumed l + consumed m :=
  Set.image_union pointsOf l m

theorem consumed_mul (l m : Language Token) : consumed (l * m) = consumed l * consumed m :=
  related_mul (homomorphic_selects Token.point?) l m

theorem consumed_unrolled (l m : Language Token) (min : ℕ) (max : Option ℕ) :
    consumed (unrolled l m min max) = unrolled (consumed l) (consumed m) min max :=
  related_unrolled (homomorphic_selects Token.point?) l m min max

theorem consumed_text (cs : List Char) (r : Bool) :
    pointsOf (cs.map fun c => .point (Point.ofChar c) r) = cs.map Point.ofChar := by
  induction cs with
  | nil => rfl
  | cons c cs ih => exact congrArg (Point.ofChar c :: ·) ih

mutual

theorem consumed_traces : (n : Node) → (r : Bool) → consumed (n.traces r) = n.words
  | empty, _ => by
    rw [traces, words]
    exact consumed_one
  | endOfInput, _ => by
    rw [traces, words]
    exact Set.image_singleton
  | text cs, r => by
    rw [traces, words, ← consumed_text cs r]
    exact Set.image_singleton
  | set s, r => by
    rw [traces, words]
    apply Language.ext
    intro w
    constructor
    · rintro ⟨_, ⟨p, hp, rfl⟩, rfl⟩
      exact ⟨p, hp, rfl⟩
    · rintro ⟨p, hp, rfl⟩
      exact ⟨[.point p r], ⟨p, hp, rfl⟩, rfl⟩
  | concat ns, r => by
    rw [traces, words]
    exact consumed_tracesAll ns r
  | oneOf a b, r => by
    rw [traces, words, consumed_add, consumed_traces a, consumed_traces b]
  | repeated n min max lazily, r => by
    rw [traces, words, consumed_unrolled, consumed_traces n, consumed_traces n, unrolled_self]
  | group id n, r => by
    have hmark : ∀ m, consumed {[.marker m]} = 1 := fun _ => Set.image_singleton
    rw [traces, words, consumed_mul, consumed_mul, hmark, hmark, one_mul, mul_one,
      consumed_traces n]

theorem consumed_tracesAll : (ns : List Node) → (r : Bool) →
    consumed (tracesAll ns r) = wordsAll ns
  | [], _ => by
    rw [tracesAll, wordsAll]
    exact consumed_one
  | n :: ns, r => by
    rw [tracesAll, wordsAll, consumed_mul, consumed_traces n, consumed_tracesAll ns]

end

section

variable (r : Bool)

theorem tagged_eq (n : Node) : tagged n r = related (Selects Token.tagged?) (traces n r) := rfl

theorem tagged_empty : tagged empty r = 1 := by
  rw [tagged_eq, traces, related_one (homomorphic_selects _)]

theorem tagged_endOfInput : tagged endOfInput r = {[(Point.endOfInput, r)]} := by
  rw [tagged_eq, traces]
  exact Set.image_singleton

theorem tagged_text (cs : List Char) :
    tagged (text cs) r = {cs.map fun c => (Point.ofChar c, r)} := by
  have h : (cs.map fun c => Token.point (Point.ofChar c) r).filterMap Token.tagged? =
      cs.map fun c => (Point.ofChar c, r) := by
    induction cs with
    | nil => rfl
    | cons c cs ih => exact congrArg ((Point.ofChar c, r) :: ·) ih
  rw [tagged_eq, traces, ← h]
  exact Set.image_singleton

theorem tagged_text_append (cs ds : List Char) :
    tagged (text (cs ++ ds)) r = tagged (text cs) r * tagged (text ds) r := by
  rw [tagged_text, tagged_text, tagged_text, List.map_append]
  exact Set.image2_singleton.symm

theorem tagged_set (s : PointSet) :
    tagged (set s) r = {w | ∃ p, s.contains p = true ∧ w = [(p, r)]} := by
  apply Language.ext
  intro w
  rw [tagged_eq, traces]
  constructor
  · rintro ⟨_, ⟨p, hp, rfl⟩, rfl⟩
    exact ⟨p, hp, rfl⟩
  · rintro ⟨p, hp, rfl⟩
    exact ⟨[.point p r], ⟨p, hp, rfl⟩, rfl⟩

def taggedAll (ns : List Node) (r : Bool) : Language (ℤ × Bool) := (ns.map (tagged · r)).prod

theorem taggedAll_append (ns ms : List Node) :
    taggedAll (ns ++ ms) r = taggedAll ns r * taggedAll ms r := by
  simp [taggedAll]

theorem taggedAll_singleton (n : Node) : taggedAll [n] r = n.tagged r := by
  simp [taggedAll]

theorem related_tracesAll (ns : List Node) :
    related (Selects Token.tagged?) (tracesAll ns r) = taggedAll ns r := by
  induction ns with
  | nil =>
    rw [tracesAll]
    exact related_one (homomorphic_selects _)
  | cons n ns ih =>
    rw [tracesAll, related_mul (homomorphic_selects _), ih, taggedAll, taggedAll, List.map_cons,
      List.prod_cons, tagged_eq]

theorem tagged_concat (ns : List Node) : tagged (concat ns) r = taggedAll ns r := by
  rw [tagged_eq, traces, related_tracesAll]

theorem tagged_ofParts (ns : List Node) : (ofParts ns).tagged r = taggedAll ns r := by
  match ns with
  | [] => exact tagged_empty r
  | [n] => exact (taggedAll_singleton r n).symm
  | n :: m :: ns => exact tagged_concat r _

theorem tagged_oneOf (a b : Node) : tagged (oneOf a b) r = tagged a r + tagged b r := by
  rw [tagged_eq, traces, related_add, tagged_eq, tagged_eq]

theorem tagged_repeated (n : Node) (min : ℕ) (max : Option ℕ) (lazily : Bool) :
    tagged (repeated n min max lazily) r =
      unrolled (tagged n r) (tagged n (r || lazily)) min max := by
  rw [tagged_eq, traces, related_unrolled (homomorphic_selects _), tagged_eq, tagged_eq]

theorem tagged_group (id : GroupId) (n : Node) : tagged (group id n) r = tagged n r := by
  have hmark : ∀ m, related (Selects Token.tagged?) {[.marker m]} = 1 :=
    fun _ => Set.image_singleton
  rw [tagged_eq, traces, related_mul (homomorphic_selects _), related_mul (homomorphic_selects _),
    hmark, hmark, one_mul, mul_one, tagged_eq]

end

theorem words_eq_untagged (n : Node) : n.words = {w | ∃ u ∈ n.taggedWords, u.map Prod.fst = w} := by
  have h : ∀ ts : List Token, (ts.filterMap Token.tagged?).map Prod.fst = pointsOf ts := by
    intro ts
    induction ts with
    | nil => rfl
    | cons t ts ih =>
      cases t with
      | point p r => exact congrArg (p :: ·) ih
      | marker m => exact ih
  rw [← consumed_traces n false]
  apply Language.ext
  intro w
  constructor
  · rintro ⟨ts, ht, rfl⟩
    exact ⟨_, ⟨ts, ht, rfl⟩, h ts⟩
  · rintro ⟨_, ⟨ts, ht, rfl⟩, rfl⟩
    exact ⟨ts, ht, (h ts).symm⟩

inductive Nested : List Token → Prop
  | nil : Nested []
  | point (p : ℤ) (r : Bool) {ts : List Token} (h : Nested ts) : Nested (.point p r :: ts)
  | group (id : GroupId) {xs ys : List Token} (hx : Nested xs) (hy : Nested ys) :
    Nested (.marker (.start id) :: (xs ++ .marker (.stop id) :: ys))

theorem Nested.append {xs ys : List Token} (hx : Nested xs) (hy : Nested ys) :
    Nested (xs ++ ys) := by
  induction hx with
  | nil => exact hy
  | point p r _ ih => exact .point p r ih
  | group id hx _ _ ih =>
    rw [List.cons_append, List.append_assoc]
    exact .group id hx ih

theorem Nested.mul {l m : Language Token} (hl : ∀ ts ∈ l, Nested ts) (hm : ∀ ts ∈ m, Nested ts) :
    ∀ ts ∈ l * m, Nested ts := by
  rintro _ ⟨xs, hx, ys, hy, rfl⟩
  exact (hl xs hx).append (hm ys hy)

theorem Nested.pow {l : Language Token} (hl : ∀ ts ∈ l, Nested ts) (n : ℕ) :
    ∀ ts ∈ l ^ n, Nested ts := by
  induction n with
  | zero =>
    rintro _ rfl
    exact .nil
  | succ n ih =>
    rw [pow_succ]
    exact Nested.mul ih hl

mutual

theorem nested_of_mem_traces : (n : Node) → (r : Bool) → ∀ ts ∈ n.traces r, Nested ts
  | empty, _, ts, h => by
    rw [traces] at h
    obtain rfl := h
    exact .nil
  | endOfInput, r, ts, h => by
    rw [traces] at h
    obtain rfl := h
    exact .point _ r .nil
  | text cs, r, ts, h => by
    rw [traces] at h
    obtain rfl := h
    induction cs with
    | nil => exact .nil
    | cons c cs ih => exact .point _ r ih
  | set s, r, ts, h => by
    rw [traces] at h
    obtain ⟨p, -, rfl⟩ := h
    exact .point p r .nil
  | concat ns, r, ts, h => by
    rw [traces] at h
    exact nested_of_mem_tracesAll ns r ts h
  | oneOf a b, r, ts, h => by
    rw [traces] at h
    rcases h with h | h
    · exact nested_of_mem_traces a r ts h
    · exact nested_of_mem_traces b r ts h
  | repeated n min max lazily, r, ts, h => by
    rw [traces] at h
    obtain ⟨k, -, h⟩ := h
    exact Nested.mul (Nested.pow (nested_of_mem_traces n r) min)
      (Nested.pow (nested_of_mem_traces n (r || lazily)) k) ts h
  | group id n, r, ts, h => by
    rw [traces] at h
    obtain ⟨_, ⟨_, rfl, xs, hx, rfl⟩, _, rfl, rfl⟩ := h
    exact .group id (nested_of_mem_traces n r xs hx) .nil

theorem nested_of_mem_tracesAll : (ns : List Node) → (r : Bool) →
    ∀ ts ∈ tracesAll ns r, Nested ts
  | [], _, ts, h => by
    rw [tracesAll] at h
    obtain rfl := h
    exact .nil
  | n :: ns, r, ts, h => by
    rw [tracesAll] at h
    exact Nested.mul (nested_of_mem_traces n r) (nested_of_mem_tracesAll ns r) ts h

end

end PatternAutomata.Node
