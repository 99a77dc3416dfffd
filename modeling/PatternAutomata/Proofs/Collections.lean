import PatternAutomata.Collections
import Mathlib.Data.List.Sort
import Mathlib.Data.Nat.Notation
import Mathlib.Order.Bounds.Basic

/-!
What merging and sorting make of strictly ascending lists, stated through membership and order; how
the neighbours of an ascending list cut up a line; and lists that stand in an array from some index
on.
-/

set_option autoImplicit false

/-! ### Ascending lists -/

namespace PatternAutomata.Ascending

variable {α : Type} [LinearOrder α]

theorem mem_mergeFrom {a x : α} {xs ys : List α} {rest : List α → List α}
    (h : ∀ zs, a ∈ rest zs ↔ a ∈ xs ∨ a ∈ zs) :
    a ∈ mergeFrom x rest ys ↔ a ∈ x :: xs ∨ a ∈ ys := by
  induction ys with
  | nil => simp [mergeFrom, h]
  | cons y ys ih =>
    rw [mergeFrom]
    split
    · rw [List.mem_cons, ih, List.mem_cons (b := y)]
      exact or_left_comm
    · rename_i hyx
      split
      · rw [List.mem_cons, h, ← or_assoc, ← List.mem_cons]
      · rename_i hxy
        rw [List.mem_cons, h, List.mem_cons, List.mem_cons,
          le_antisymm (not_lt.1 hyx) (not_lt.1 hxy)]
        tauto

theorem mem_merge {a : α} {xs ys : List α} : a ∈ merge xs ys ↔ a ∈ xs ∨ a ∈ ys := by
  induction xs generalizing ys with
  | nil => simp [merge]
  | cons x xs ih => exact mem_mergeFrom fun zs => ih

theorem pairwise_mergeFrom {x : α} {xs ys : List α} {rest : List α → List α}
    (hm : ∀ a zs, a ∈ rest zs ↔ a ∈ xs ∨ a ∈ zs)
    (hr : ∀ zs, zs.Pairwise (· < ·) → (rest zs).Pairwise (· < ·))
    (hx : ∀ a ∈ xs, x < a) (hy : ys.Pairwise (· < ·)) :
    (mergeFrom x rest ys).Pairwise (· < ·) := by
  induction ys with
  | nil =>
    refine List.pairwise_cons.2 ⟨fun a ha => ?_, hr [] .nil⟩
    rcases (hm a []).1 ha with ha | ha
    · exact hx a ha
    · cases ha
  | cons y ys ih =>
    have hys := List.pairwise_cons.1 hy
    rw [mergeFrom]
    split
    · rename_i hyx
      refine List.pairwise_cons.2 ⟨fun a ha => ?_, ih hys.2⟩
      rcases (mem_mergeFrom (hm a)).1 ha with ha | ha
      · rcases List.mem_cons.1 ha with rfl | ha
        · exact hyx
        · exact hyx.trans (hx a ha)
      · exact hys.1 a ha
    · rename_i hyx
      split
      · rename_i hxy
        refine List.pairwise_cons.2 ⟨fun a ha => ?_, hr _ hy⟩
        rcases (hm a _).1 ha with ha | ha
        · exact hx a ha
        · rcases List.mem_cons.1 ha with rfl | ha
          · exact hxy
          · exact hxy.trans (hys.1 a ha)
      · rename_i hxy
        have hxy := le_antisymm (not_lt.1 hyx) (not_lt.1 hxy)
        refine List.pairwise_cons.2 ⟨fun a ha => ?_, hr _ hys.2⟩
        rcases (hm a _).1 ha with ha | ha
        · exact hx a ha
        · exact hxy ▸ hys.1 a ha

theorem pairwise_merge {xs ys : List α} (hx : xs.Pairwise (· < ·)) (hy : ys.Pairwise (· < ·)) :
    (merge xs ys).Pairwise (· < ·) := by
  induction xs generalizing ys with
  | nil => exact hy
  | cons x xs ih =>
    have hxs := List.pairwise_cons.1 hx
    exact pairwise_mergeFrom (fun a zs => mem_merge) (fun zs hz => ih hxs.2 hz) hxs.1 hy

theorem mem_ofList {a : α} {xs : List α} : a ∈ ofList xs ↔ a ∈ xs := by
  induction xs with
  | nil => rfl
  | cons x xs ih =>
    rw [ofList, List.foldr_cons, insert, mem_merge, ← ofList, ih, List.mem_singleton, List.mem_cons]

theorem pairwise_ofList (xs : List α) : (ofList xs).Pairwise (· < ·) := by
  induction xs with
  | nil => exact .nil
  | cons x xs ih => exact pairwise_merge (List.pairwise_singleton _ x) ih

theorem head?_eq_some_iff {xs : List α} (h : xs.Pairwise (· < ·)) {a : α} :
    xs.head? = some a ↔ IsLeast {b | b ∈ xs} a := by
  cases xs with
  | nil =>
    constructor
    · intro hnil
      cases hnil
    · rintro ⟨hnil, -⟩
      cases hnil
  | cons x xs =>
    have hx := (List.pairwise_cons.1 h).1
    have hleast : IsLeast {b | b ∈ x :: xs} x := by
      refine ⟨List.mem_cons_self, fun b hb => ?_⟩
      rcases List.mem_cons.1 hb with rfl | hb
      · exact le_rfl
      · exact (hx b hb).le
    rw [List.head?_cons, Option.some.injEq]
    constructor
    · rintro rfl
      exact hleast
    · exact hleast.unique

/-- A list that ascends by a key is determined by its members. -/
theorem eq_of_mem_iff {β : Type} {key : β → α} {xs ys : List β}
    (hx : xs.Pairwise fun a b => key a < key b) (hy : ys.Pairwise fun a b => key a < key b)
    (h : ∀ b, b ∈ xs ↔ b ∈ ys) : xs = ys := by
  have hirrefl : Std.Irrefl fun a b : β => key a < key b := ⟨fun b => lt_irrefl (key b)⟩
  have hantisymm : Std.Antisymm fun a b : β => key a < key b :=
    ⟨fun a b hab hba => absurd hba hab.asymm⟩
  exact hx.eq_of_mem_iff hy h

theorem windows_adjacent {cs : List α} (h : cs.Pairwise (· < ·)) {s e : α}
    (hw : (s, e) ∈ windows cs) : s < e ∧ ∀ c ∈ cs, c ≤ s ∨ e ≤ c := by
  induction cs with
  | nil => cases hw
  | cons c cs ih =>
    cases cs with
    | nil => cases hw
    | cons d cs =>
      have hc := List.pairwise_cons.1 h
      rw [windows, List.tail_cons, List.zip_cons_cons] at hw
      rcases List.mem_cons.1 hw with hw | hw
      · obtain ⟨rfl, rfl⟩ := Prod.mk.inj hw
        have hd := List.pairwise_cons.1 hc.2
        refine ⟨hc.1 e (by simp), fun b hb => ?_⟩
        rcases List.mem_cons.1 hb with rfl | hb
        · exact Or.inl le_rfl
        · rcases List.mem_cons.1 hb with rfl | hb
          · exact Or.inr le_rfl
          · exact Or.inr (hd.1 b hb).le
      · obtain ⟨hse, hall⟩ := ih hc.2 hw
        have hcs := hc.1 s (List.of_mem_zip hw).1
        refine ⟨hse, fun b hb => ?_⟩
        rcases List.mem_cons.1 hb with rfl | hb
        · exact Or.inl hcs.le
        · exact hall b hb

theorem exists_window {cs : List α} {x lo hi : α} (hlo : lo ∈ cs) (hhi : hi ∈ cs)
    (h : cs.Pairwise (· < ·)) (hl : lo ≤ x) (hh : x < hi) :
    ∃ s e, (s, e) ∈ windows cs ∧ s ≤ x ∧ x < e := by
  induction cs generalizing lo with
  | nil => cases hlo
  | cons c cs ih =>
    have hc := List.pairwise_cons.1 h
    have hcx : c ≤ x := by
      rcases List.mem_cons.1 hlo with rfl | hlo
      · exact hl
      · exact (hc.1 lo hlo).le.trans hl
    have hhi : hi ∈ cs := by
      rcases List.mem_cons.1 hhi with rfl | hhi
      · exact absurd hcx hh.not_ge
      · exact hhi
    cases cs with
    | nil => cases hhi
    | cons d cs =>
      by_cases hd : d ≤ x
      · obtain ⟨s, e, hw, hse⟩ := ih (List.mem_cons_self) hhi hc.2 hd
        exact ⟨s, e, List.mem_cons_of_mem _ hw, hse⟩
      · exact ⟨c, d, List.mem_cons_self, hcx, not_le.1 hd⟩

end PatternAutomata.Ascending

/-! ### Pieces of an array -/

namespace PatternAutomata

variable {α : Type}

def LaidOut (a : Array α) (base : ℕ) (xs : List α) : Prop :=
  ∀ i x, xs[i]? = some x → a[base + i]? = some x

theorem laidOut_append_toArray (a : Array α) (xs : List α) :
    LaidOut (a ++ xs.toArray) a.size xs := by
  intro i x h
  rw [Array.getElem?_append_right (Nat.le_add_right _ _), Nat.add_sub_cancel_left,
    List.getElem?_toArray]
  exact h

theorem laidOut_toArray (xs : List α) : LaidOut xs.toArray 0 xs := by
  have h := laidOut_append_toArray #[] xs
  rwa [Array.empty_append] at h

theorem laidOut_nil (a : Array α) (base : ℕ) : LaidOut a base [] := by
  intro i x h
  cases h

theorem laidOut_cons {a : Array α} {base : ℕ} {x : α} {xs : List α} :
    LaidOut a base (x :: xs) ↔ a[base]? = some x ∧ LaidOut a (base + 1) xs := by
  constructor
  · intro h
    refine ⟨h 0 x rfl, fun i y hy => ?_⟩
    rw [Nat.add_assoc, Nat.add_comm 1 i]
    exact h (i + 1) y hy
  · rintro ⟨hx, hxs⟩ i y hy
    cases i with
    | zero => exact hx.trans hy
    | succ i =>
      rw [Nat.add_comm i 1, ← Nat.add_assoc]
      exact hxs i y hy

theorem laidOut_append {a : Array α} {base : ℕ} {xs ys : List α} :
    LaidOut a base (xs ++ ys) ↔ LaidOut a base xs ∧ LaidOut a (base + xs.length) ys := by
  induction xs generalizing base with
  | nil => simp [laidOut_nil]
  | cons x xs ih =>
    rw [List.cons_append, laidOut_cons, laidOut_cons, ih, and_assoc, List.length_cons,
      Nat.add_assoc, Nat.add_comm 1]

end PatternAutomata
