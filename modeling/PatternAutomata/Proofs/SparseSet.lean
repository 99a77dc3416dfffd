import PatternAutomata.Collections
import Mathlib.Data.List.Nodup
import Mathlib.Data.List.Perm.Subperm

/-!
Sparse sets hold a list without duplicates, and exploring a graph adds to one what can be reached.
`contains_explore` needs the set explored into to be closed: the search does not look behind the
nodes that it finds there.
-/

set_option autoImplicit false

namespace PatternAutomata.SparseSet

/-- Below the length, the dense array points at slots that point back. What stands above it is
stale. -/
structure WellFormed (s : SparseSet) : Prop where
  size_slots : s.slots.size = s.capacity
  length_le : s.length ≤ s.capacity
  back : ∀ i < s.length, ∃ id, s.dense[i]? = some id ∧ s.slots[id]? = some i

theorem wellFormed_ofCapacity (capacity : ℕ) : (ofCapacity capacity).WellFormed where
  size_slots := by simp [ofCapacity, SparseSet.capacity]
  length_le := Nat.zero_le _
  back := fun i hi => absurd hi (Nat.not_lt_zero i)

theorem capacity_ofCapacity (capacity : ℕ) : (ofCapacity capacity).capacity = capacity := by
  simp [ofCapacity, SparseSet.capacity]

theorem WellFormed.clear {s : SparseSet} (h : s.WellFormed) : s.clear.WellFormed where
  size_slots := h.size_slots
  length_le := Nat.zero_le _
  back := fun i hi => absurd hi (Nat.not_lt_zero i)

theorem contains_iff {s : SparseSet} {id : ℕ} :
    s.contains id = true ↔ ∃ i, s.slots[id]? = some i ∧ i < s.length ∧ s.dense[i]? = some id := by
  unfold contains
  cases s.slots[id]? with
  | none => simp
  | some i => simp

theorem contains_clear (s : SparseSet) (id : ℕ) : s.clear.contains id = false := by
  rw [← Bool.not_eq_true, contains_iff]
  rintro ⟨i, -, hi, -⟩
  exact Nat.not_lt_zero i hi

theorem contains_ofCapacity (capacity id : ℕ) : (ofCapacity capacity).contains id = false :=
  contains_clear (ofCapacity capacity) id

theorem toList_ofCapacity (capacity : ℕ) : (ofCapacity capacity).toList = [] := by
  simp only [toList, ofCapacity, Array.extract_zero, Array.toList_empty]

theorem getElem?_toList (s : SparseSet) {i : ℕ} (hi : i < s.length) :
    s.toList[i]? = s.dense[i]? := by
  rw [toList, Array.getElem?_toList, Array.getElem?_extract]
  simp only [Nat.sub_zero, Nat.zero_add]
  split
  · rfl
  · exact (Array.getElem?_eq_none (by omega)).symm

theorem WellFormed.length_toList {s : SparseSet} (h : s.WellFormed) :
    s.toList.length = s.length := by
  have := h.length_le
  simp only [capacity] at this
  simp only [toList, Array.length_toList, Array.size_extract]
  omega

theorem WellFormed.mem_toList {s : SparseSet} (h : s.WellFormed) {id : ℕ} :
    id ∈ s.toList ↔ s.contains id = true := by
  rw [contains_iff, List.mem_iff_getElem?]
  constructor
  · rintro ⟨i, hi⟩
    have hlt : i < s.length := by
      rw [← h.length_toList]
      exact (List.getElem?_eq_some_iff.1 hi).1
    obtain ⟨id', hd, hs⟩ := h.back i hlt
    rw [getElem?_toList s hlt, hd] at hi
    obtain rfl := Option.some.inj hi
    exact ⟨i, hs, hlt, hd⟩
  · rintro ⟨i, -, hi, hd⟩
    exact ⟨i, by rw [getElem?_toList s hi, hd]⟩

theorem WellFormed.lt_capacity {s : SparseSet} (h : s.WellFormed) {id : ℕ}
    (hc : s.contains id = true) : id < s.capacity := by
  obtain ⟨i, hs, -⟩ := contains_iff.1 hc
  rw [← h.size_slots]
  exact (Array.getElem?_eq_some_iff.1 hs).1

theorem WellFormed.nodup_toList {s : SparseSet} (h : s.WellFormed) : s.toList.Nodup := by
  rw [List.nodup_iff_getElem?_ne_getElem?]
  intro i j hij hj heq
  rw [h.length_toList] at hj
  obtain ⟨a, hda, hsa⟩ := h.back i (by omega)
  obtain ⟨b, hdb, hsb⟩ := h.back j hj
  rw [getElem?_toList s (by omega), getElem?_toList s hj, hda, hdb] at heq
  obtain rfl := Option.some.inj heq
  rw [hsa] at hsb
  exact Nat.ne_of_lt hij (Option.some.inj hsb)

theorem WellFormed.length_lt {s : SparseSet} (h : s.WellFormed) {id : ℕ} (hid : id < s.capacity)
    (hc : ¬ s.contains id = true) : s.length < s.capacity := by
  have hnodup : (id :: s.toList).Nodup :=
    List.nodup_cons.2 ⟨fun hm => hc (h.mem_toList.1 hm), h.nodup_toList⟩
  have hsub : id :: s.toList ⊆ List.range s.capacity := by
    intro a ha
    rcases List.mem_cons.1 ha with rfl | ha
    · exact List.mem_range.2 hid
    · exact List.mem_range.2 (h.lt_capacity (h.mem_toList.1 ha))
  have := (hnodup.subperm hsub).length_le
  simp only [List.length_cons, h.length_toList, List.length_range] at this
  omega

theorem capacity_insert (s : SparseSet) (id : ℕ) : (s.insert id).2.capacity = s.capacity := by
  unfold insert
  split
  · rfl
  · split
    · simp only [capacity, Array.size_setIfInBounds]
    · rfl

theorem WellFormed.insert {s : SparseSet} (h : s.WellFormed) (id : ℕ) :
    (s.insert id).2.WellFormed := by
  unfold SparseSet.insert
  split
  · exact h
  · rename_i hc
    split
    · rename_i hid
      have hcap : (⟨s.length + 1, s.dense.setIfInBounds s.length id,
          s.slots.setIfInBounds id s.length⟩ : SparseSet).capacity = s.capacity :=
        Array.size_setIfInBounds
      have hlen := h.length_lt (h.size_slots ▸ hid) hc
      refine ⟨?_, ?_, fun i hi => ?_⟩
      · rw [hcap, ← h.size_slots]
        exact Array.size_setIfInBounds
      · rw [hcap]
        exact hlen
      · by_cases hi' : i = s.length
        · refine ⟨id, ?_, ?_⟩
          · rw [hi', Array.getElem?_setIfInBounds_self_of_lt hlen]
          · rw [hi', Array.getElem?_setIfInBounds_self_of_lt hid]
        · have hi'' : i < s.length := by simp only at hi; omega
          obtain ⟨a, hd, hs⟩ := h.back i hi''
          have hne : id ≠ a := by
            rintro rfl
            exact hc (contains_iff.2 ⟨i, hs, hi'', hd⟩)
          refine ⟨a, ?_, ?_⟩
          · rw [Array.getElem?_setIfInBounds_ne (Ne.symm hi')]
            exact hd
          · rw [Array.getElem?_setIfInBounds_ne hne]
            exact hs
    · exact h

theorem WellFormed.length_insert {s : SparseSet} (h : s.WellFormed) {id : ℕ}
    (hid : id < s.capacity) (hc : ¬ s.contains id = true) :
    (s.insert id).2.length = s.length + 1 := by
  unfold SparseSet.insert
  rw [if_neg hc, if_pos (h.size_slots ▸ hid)]

theorem WellFormed.toList_insert {s : SparseSet} (h : s.WellFormed) {id : ℕ} (hid : id < s.capacity)
    (hc : ¬ s.contains id = true) : (s.insert id).2.toList = s.toList ++ [id] := by
  have hlen := h.length_lt hid hc
  have hins := h.insert id
  refine List.ext_getElem? fun i => ?_
  by_cases hi : i < s.length + 1
  · rw [getElem?_toList _ (by rw [h.length_insert hid hc]; exact hi)]
    unfold SparseSet.insert
    rw [if_neg hc, if_pos (h.size_slots ▸ hid)]
    by_cases hi' : i = s.length
    · rw [List.getElem?_append_right (by rw [h.length_toList]; omega), h.length_toList, hi',
        Nat.sub_self, Array.getElem?_setIfInBounds_self_of_lt hlen]
      rfl
    · rw [List.getElem?_append_left (by rw [h.length_toList]; omega),
        getElem?_toList _ (by omega), Array.getElem?_setIfInBounds_ne (Ne.symm hi')]
  · rw [List.getElem?_eq_none (by rw [hins.length_toList, h.length_insert hid hc]; omega),
      List.getElem?_eq_none (by
        rw [List.length_append, h.length_toList, List.length_singleton]
        omega)]

theorem insert_eq_self {s : SparseSet} {id : ℕ} (h : s.WellFormed)
    (hid : ¬ id < s.capacity ∨ s.contains id = true) : (s.insert id).2 = s := by
  unfold SparseSet.insert
  split
  · rfl
  · rename_i hc
    rw [if_neg (by rw [h.size_slots]; exact hid.resolve_right hc)]

theorem WellFormed.contains_insert {s : SparseSet} (h : s.WellFormed) {id a : ℕ}
    (hid : id < s.capacity) : (s.insert id).2.contains a = true ↔ s.contains a = true ∨ a = id := by
  by_cases hc : s.contains id = true
  · rw [insert_eq_self h (Or.inr hc)]
    constructor
    · exact Or.inl
    · rintro (ha | rfl)
      · exact ha
      · exact hc
  · rw [← (h.insert id).mem_toList, h.toList_insert hid hc, List.mem_append, List.mem_singleton,
      h.mem_toList]

theorem WellFormed.prefix_insert {s : SparseSet} (h : s.WellFormed) (id : ℕ) :
    s.toList <+: (s.insert id).2.toList := by
  by_cases hid : id < s.capacity ∧ ¬ s.contains id = true
  · rw [h.toList_insert hid.1 hid.2]
    exact List.prefix_append _ _
  · have : ¬ id < s.capacity ∨ s.contains id = true := by tauto
    simp only [insert_eq_self h this, List.prefix_refl]

section Explore

variable {successors : ℕ → List ℕ}

theorem exploreStack_wellFormed (rounds : ℕ) (stack : List ℕ) {s : SparseSet} (h : s.WellFormed) :
    (exploreStack successors rounds stack s).WellFormed ∧
      (exploreStack successors rounds stack s).capacity = s.capacity ∧
      s.toList <+: (exploreStack successors rounds stack s).toList := by
  induction rounds generalizing stack s with
  | zero => exact ⟨h, rfl, List.prefix_refl _⟩
  | succ rounds ih =>
    rw [exploreStack]
    split
    · exact ⟨h, rfl, List.prefix_refl _⟩
    · rename_i id rest _
      obtain ⟨h1, h2, h3⟩ := ih (successors id ++ rest) (h.insert id)
      exact ⟨h1, h2.trans (capacity_insert s id), (h.prefix_insert id).trans h3⟩

theorem explore_wellFormed (start : ℕ) {s : SparseSet} (h : s.WellFormed) :
    (s.explore successors start).WellFormed ∧
      (s.explore successors start).capacity = s.capacity := by
  obtain ⟨h1, h2, -⟩ := exploreStack_wellFormed s.capacity [start] h
  exact ⟨h1, h2⟩

theorem prefix_explore {start : ℕ} {s : SparseSet} (h : s.WellFormed) (hs : start < s.capacity)
    (hc : s.contains start = false) :
    s.toList ++ [start] <+: (s.explore successors start).toList := by
  obtain ⟨rounds, hr⟩ := Nat.exists_eq_succ_of_ne_zero (Nat.ne_of_gt (Nat.zero_lt_of_lt hs))
  have hdrop : [start].dropWhile s.contains = [start] :=
    List.dropWhile_cons_of_neg (by rw [hc]; exact Bool.false_ne_true)
  rw [explore, hr, exploreStack, hdrop, ← h.toList_insert hs (by rw [hc]; exact Bool.false_ne_true)]
  exact (exploreStack_wellFormed rounds _ (h.insert start)).2.2

theorem contains_of_prefix {s t : SparseSet} (hs : s.WellFormed) (ht : t.WellFormed)
    (h : s.toList <+: t.toList) {a : ℕ} (ha : s.contains a = true) : t.contains a = true :=
  ht.mem_toList.1 (h.subset (hs.mem_toList.2 ha))

theorem exploreStack_sound {rounds : ℕ} {stack : List ℕ} {s : SparseSet} (h : s.WellFormed) {a : ℕ}
    (ha : (exploreStack successors rounds stack s).contains a = true) :
    s.contains a = true ∨ ∃ b ∈ stack, Reaches successors b a := by
  induction rounds generalizing stack s with
  | zero => exact Or.inl ha
  | succ rounds ih =>
    rw [exploreStack] at ha
    split at ha
    · exact Or.inl ha
    · rename_i id rest hstack
      have hsub : id :: rest ⊆ stack := hstack ▸ (List.dropWhile_suffix _).subset
      rcases ih (h.insert id) ha with hi | ⟨b, hb, hr⟩
      · by_cases hid : id < s.capacity
        · rcases (h.contains_insert hid).1 hi with hs | rfl
          · exact Or.inl hs
          · exact Or.inr ⟨a, hsub List.mem_cons_self, .refl a⟩
        · rw [insert_eq_self h (Or.inl hid)] at hi
          exact Or.inl hi
      · rcases List.mem_append.1 hb with hb | hb
        · exact Or.inr ⟨id, hsub List.mem_cons_self, .step hb hr⟩
        · exact Or.inr ⟨b, hsub (List.mem_cons_of_mem _ hb), hr⟩

/-- What a search still has to see to: the successors of members are members or on the stack. -/
def Pending (successors : ℕ → List ℕ) (s : SparseSet) (stack : List ℕ) : Prop :=
  ∀ a, s.contains a = true → ∀ b ∈ successors a, s.contains b = true ∨ b ∈ stack

theorem mem_dropWhile_of_not {p : ℕ → Bool} {xs : List ℕ} {a : ℕ} (h : a ∈ xs) (hp : p a = false) :
    a ∈ xs.dropWhile p := by
  induction xs with
  | nil => cases h
  | cons x xs ih =>
    by_cases hx : p x = true
    · rw [List.dropWhile_cons_of_pos hx]
      rcases List.mem_cons.1 h with rfl | h
      · rw [hp] at hx
        cases hx
      · exact ih h
    · rw [List.dropWhile_cons_of_neg hx]
      exact h

theorem contains_or_mem_dropWhile {s : SparseSet} {stack : List ℕ} {a : ℕ} (ha : a ∈ stack) :
    s.contains a = true ∨ a ∈ stack.dropWhile s.contains := by
  by_cases hc : s.contains a = true
  · exact Or.inl hc
  · exact Or.inr (mem_dropWhile_of_not ha (Bool.not_eq_true _ ▸ hc))

theorem new_of_dropWhile {s : SparseSet} {stack rest : List ℕ} {id : ℕ}
    (h : stack.dropWhile s.contains = id :: rest) :
    ¬ s.contains id = true ∧ id :: rest ⊆ stack := by
  refine ⟨?_, h ▸ (List.dropWhile_suffix _).subset⟩
  have := List.head?_dropWhile_not s.contains stack
  rw [h] at this
  simpa using this

theorem contains_insert_or_mem {s : SparseSet} (h : s.WellFormed) {id : ℕ} (hid : id < s.capacity)
    {rest : List ℕ} {a : ℕ} (ha : s.contains a = true ∨ a ∈ id :: rest) :
    (s.insert id).2.contains a = true ∨ a ∈ successors id ++ rest := by
  rcases ha with ha | ha
  · exact Or.inl ((h.contains_insert hid).2 (Or.inl ha))
  · rcases List.mem_cons.1 ha with rfl | ha
    · exact Or.inl ((h.contains_insert hid).2 (Or.inr rfl))
    · exact Or.inr (List.mem_append_right _ ha)

/-- A round keeps to the invariant: it puts the successors of the node that it records on the
stack. -/
theorem Pending.insert {s : SparseSet} {stack rest : List ℕ} {id : ℕ}
    (hp : Pending successors s stack) (h : s.WellFormed) (hid : id < s.capacity)
    (hcons : stack.dropWhile s.contains = id :: rest) :
    Pending successors (s.insert id).2 (successors id ++ rest) := by
  intro a ha b hb
  rcases (h.contains_insert hid).1 ha with ha | rfl
  · rcases hp a ha b hb with hb | hb
    · exact contains_insert_or_mem h hid (Or.inl hb)
    · exact contains_insert_or_mem h hid (hcons ▸ contains_or_mem_dropWhile hb)
  · exact Or.inr (List.mem_append_left _ hb)

theorem lt_of_mem_pushed {s : SparseSet} {stack rest : List ℕ} {id : ℕ}
    (hsucc : ∀ a, ∀ b ∈ successors a, b < s.capacity) (hstack : ∀ a ∈ stack, a < s.capacity)
    (hsub : id :: rest ⊆ stack) :
    ∀ a ∈ successors id ++ rest, a < (s.insert id).2.capacity := by
  rw [capacity_insert]
  exact List.forall_mem_append.2
    ⟨hsucc id, fun a ha => hstack a (hsub (List.mem_cons_of_mem _ ha))⟩

theorem exploreStack_closed {rounds : ℕ} {stack : List ℕ} {s : SparseSet} (h : s.WellFormed)
    (hsucc : ∀ a, ∀ b ∈ successors a, b < s.capacity) (hstack : ∀ a ∈ stack, a < s.capacity)
    (hrounds : s.capacity ≤ s.length + rounds) (hp : Pending successors s stack) :
    Closed successors (exploreStack successors rounds stack s) ∧
      ∀ a ∈ stack, (exploreStack successors rounds stack s).contains a = true := by
  induction rounds generalizing stack s with
  | zero =>
    -- Without rounds left every number is a member.
    have hall : ∀ a < s.capacity, s.contains a = true := by
      intro a ha
      by_contra hc
      have := h.length_lt ha hc
      omega
    exact ⟨fun a _ b hb => hall b (hsucc a b hb), fun a ha => hall a (hstack a ha)⟩
  | succ rounds ih =>
    rw [exploreStack]
    split
    · rename_i hnil
      have hmem : ∀ a ∈ stack, s.contains a = true := by
        intro a ha
        rcases contains_or_mem_dropWhile ha with hc | hc
        · exact hc
        · rw [hnil] at hc
          cases hc
      exact ⟨fun a ha b hb => (hp a ha b hb).elim id (hmem b), hmem⟩
    · rename_i id rest hcons
      obtain ⟨hc, hsub⟩ := new_of_dropWhile hcons
      have hid : id < s.capacity := hstack id (hsub List.mem_cons_self)
      have hcap := capacity_insert s id
      obtain ⟨hclosed, hall⟩ := ih (h.insert id) (by rw [hcap]; exact hsucc)
        (lt_of_mem_pushed hsucc hstack hsub) (by rw [hcap, h.length_insert hid hc]; omega)
        (hp.insert h hid hcons)
      refine ⟨hclosed, fun a ha => ?_⟩
      obtain ⟨hw, -, hpre⟩ :=
        exploreStack_wellFormed rounds (successors id ++ rest) (h.insert id)
      have hnext : (s.insert id).2.contains a = true ∨ a ∈ successors id ++ rest :=
        contains_insert_or_mem h hid (hcons ▸ contains_or_mem_dropWhile ha)
      rcases hnext with ha | ha
      · exact contains_of_prefix (h.insert id) hw hpre ha
      · exact hall a ha

theorem Closed.reaches {s : SparseSet} (h : Closed successors s) {a b : ℕ}
    (hr : Reaches successors a b) (ha : s.contains a = true) : s.contains b = true := by
  induction hr with
  | refl _ => exact ha
  | step hb _ ih => exact ih (h _ ha _ hb)

theorem explore_closed {start : ℕ} {s : SparseSet} (h : s.WellFormed)
    (hsucc : ∀ a, ∀ b ∈ successors a, b < s.capacity) (hstart : start < s.capacity)
    (hs : Closed successors s) : Closed successors (s.explore successors start) := by
  refine (exploreStack_closed h hsucc ?_ (Nat.le_add_left _ _) fun a ha b hb => ?_).1
  · intro a ha
    rwa [List.mem_singleton.1 ha]
  · exact Or.inl (hs a ha b hb)

/-- Exploring adds what can be reached from the start, and nothing else. -/
theorem contains_explore {start : ℕ} {s : SparseSet} (h : s.WellFormed)
    (hsucc : ∀ a, ∀ b ∈ successors a, b < s.capacity) (hstart : start < s.capacity)
    (hs : Closed successors s) {a : ℕ} :
    (s.explore successors start).contains a = true ↔
      s.contains a = true ∨ Reaches successors start a := by
  have hbound : ∀ a ∈ [start], a < s.capacity := fun a ha => by rwa [List.mem_singleton.1 ha]
  have hall := exploreStack_closed h hsucc hbound (Nat.le_add_left _ s.length)
    (fun a ha b hb => Or.inl (hs a ha b hb))
  obtain ⟨hw, -, hpre⟩ := exploreStack_wellFormed s.capacity [start] h
  constructor
  · intro ha
    rcases exploreStack_sound h ha with ha | ⟨b, hb, hr⟩
    · exact Or.inl ha
    · exact Or.inr (List.mem_singleton.1 hb ▸ hr)
  · rintro (ha | hr)
    · exact contains_of_prefix h hw hpre ha
    · exact hall.1.reaches hr (hall.2 start List.mem_cons_self)

end Explore

end PatternAutomata.SparseSet
