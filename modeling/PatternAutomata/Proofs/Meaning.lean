import PatternAutomata.Node.Grammar
import PatternAutomata.Proofs.Traces

/-!
Trees as meanings, and agreement of meanings on the words that a matcher can be given.
-/

set_option autoImplicit false

namespace PatternAutomata.Grammar

open Node (related Feedable Homomorphic)

section OnePoint

variable {a b : ℤ → Prop}

theorem onePoint_congr (h : ∀ p, a p ↔ b p) : Meaning.onePoint a = Meaning.onePoint b := by
  rw [funext fun p => propext (h p)]

theorem onePoint_add (a b : ℤ → Prop) :
    Meaning.onePoint a + Meaning.onePoint b = Meaning.onePoint fun p => a p ∨ b p := by
  funext r
  apply Language.ext
  intro w
  constructor
  · rintro (⟨p, hp, rfl⟩ | ⟨p, hp, rfl⟩)
    · exact ⟨p, .inl hp, rfl⟩
    · exact ⟨p, .inr hp, rfl⟩
  · rintro ⟨p, hp | hp, rfl⟩
    · exact .inl ⟨p, hp, rfl⟩
    · exact .inr ⟨p, hp, rfl⟩

theorem onePoint_eq (q : ℤ) (r : Bool) : Meaning.onePoint (· = q) r = {[(q, r)]} := by
  apply Language.ext
  intro w
  constructor
  · rintro ⟨_, rfl, rfl⟩
    rfl
  · rintro rfl
    exact ⟨q, rfl, rfl⟩

end OnePoint

section Trees

variable {m k : Meaning} {n n' : Node}

theorem tagged_empty : Node.empty.tagged = 1 := funext Node.tagged_empty

theorem tagged_endOfInput :
    Node.endOfInput.tagged = Meaning.onePoint (· = Point.endOfInput) := by
  funext r
  rw [Node.tagged_endOfInput, onePoint_eq]

theorem tagged_text_nil : (Node.text []).tagged = 1 := by
  funext r
  exact Node.tagged_text r []

theorem tagged_char (c : Char) :
    (Node.text [c]).tagged = Meaning.onePoint (· = Point.ofChar c) := by
  funext r
  rw [Node.tagged_text, onePoint_eq]
  rfl

theorem tagged_text_cons (c : Char) (cs : List Char) :
    (Node.text (c :: cs)).tagged =
      Meaning.onePoint (· = Point.ofChar c) * (Node.text cs).tagged := by
  rw [← tagged_char]
  funext r
  exact Node.tagged_text_append r [c] cs

theorem tagged_set {s : PointSet} {members : ℤ → Prop}
    (h : ∀ p, s.contains p = true ↔ members p) :
    (Node.set s).tagged = Meaning.onePoint members := by
  rw [← onePoint_congr h]
  exact funext fun r => Node.tagged_set r s

theorem tagged_oneOf (h : n.tagged = m) (h' : n'.tagged = k) :
    (Node.oneOf n n').tagged = m + k := by
  subst h h'
  exact funext fun r => Node.tagged_oneOf r n n'

theorem tagged_repeated (h : n.tagged = m) (min : ℕ) (max : Option ℕ) (lazily : Bool) :
    (Node.repeated n min max lazily).tagged = m.repeated min max lazily := by
  subst h
  exact funext fun r => Node.tagged_repeated r n min max lazily

theorem tagged_group (id : GroupId) (n : Node) : (Node.group id n).tagged = n.tagged :=
  funext fun r => Node.tagged_group r id n

end Trees

section Agreement

def Stays (u w : List (ℤ × Bool)) : Prop := u = w ∧ ∀ x ∈ u, Feedable x.1

theorem homomorphic_stays : Homomorphic Stays := Node.homomorphic_keeps _

/-- The meanings have the same words among those that a matcher can be given. -/
def Agree (m k : Meaning) : Prop := ∀ r, related Stays (m r) = related Stays (k r)

variable {m m' k k' : Meaning}

theorem Agree.refl (m : Meaning) : Agree m m := fun _ => rfl

theorem Agree.add (hm : Agree m m') (hk : Agree k k') : Agree (m + k) (m' + k') := by
  intro r
  rw [Pi.add_apply, Pi.add_apply, Node.related_add, Node.related_add, hm, hk]

theorem Agree.mul (hm : Agree m m') (hk : Agree k k') : Agree (m * k) (m' * k') := by
  intro r
  rw [Pi.mul_apply, Pi.mul_apply, Node.related_mul homomorphic_stays,
    Node.related_mul homomorphic_stays, hm, hk]

theorem Agree.repeated (hm : Agree m m') (min : ℕ) (max : Option ℕ) (lazily : Bool) :
    Agree (m.repeated min max lazily) (m'.repeated min max lazily) := by
  intro r
  rw [Meaning.repeated, Meaning.repeated, Node.related_unrolled homomorphic_stays,
    Node.related_unrolled homomorphic_stays, hm, hm]

theorem Agree.onePoint {a b : ℤ → Prop} (h : ∀ p, Feedable p → (a p ↔ b p)) :
    Agree (.onePoint a) (.onePoint b) := by
  have hle : ∀ a b : ℤ → Prop, (∀ p, Feedable p → a p → b p) → ∀ r w,
      w ∈ related Stays (Meaning.onePoint a r) → w ∈ related Stays (Meaning.onePoint b r) := by
    rintro a b h r _ ⟨_, ⟨p, hp, rfl⟩, rfl, hw⟩
    exact ⟨_, ⟨p, h p (hw (p, r) List.mem_cons_self) hp, rfl⟩, rfl, hw⟩
  intro r
  apply Language.ext
  intro w
  exact ⟨hle a b (fun p hp => (h p hp).1) r w, hle b a (fun p hp => (h p hp).2) r w⟩

theorem Agree.mem_iff (h : Agree m k) {r : Bool} {w : List (ℤ × Bool)}
    (hw : ∀ x ∈ w, Feedable x.1) : w ∈ m r ↔ w ∈ k r := by
  have mem : ∀ l : Language (ℤ × Bool), w ∈ related Stays l ↔ w ∈ l :=
    fun _ => Node.mem_related_keeps hw
  rw [← mem, h r, mem]

end Agreement

end PatternAutomata.Grammar
