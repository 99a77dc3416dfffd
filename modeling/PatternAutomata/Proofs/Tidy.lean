import PatternAutomata.Proofs.CanonicalSets
import PatternAutomata.Proofs.Trees
import Mathlib.Data.List.Chain

/-!
The tree of a written pattern is tidy: neighbouring literals are merged and empty parts left out
wherever a concatenation grows, and classes are settled when they are closed. Its groups are
numbered by their opening parentheses.
-/

set_option autoImplicit false

namespace PatternAutomata

open Parser.Branch (addPart)

namespace Node

/-! ### Numbers -/

theorem numbered_append {ids more : List GroupId} {next : ℕ} :
    Numbered next (ids ++ more) ↔ Numbered next ids ∧ Numbered (next + ids.length) more := by
  induction ids generalizing next with
  | nil => simp [Numbered]
  | cons id ids ih =>
    rw [List.cons_append, Numbered, Numbered, ih, List.length_cons, and_assoc,
      Nat.add_right_comm, Nat.add_assoc]

/-! ### Parts -/

theorem tidyAll_iff {ns : List Node} : TidyAll ns ↔ ∀ n ∈ ns, n ≠ .empty ∧ n.Tidy := by
  induction ns with
  | nil => simp [TidyAll]
  | cons n ns ih => rw [TidyAll, ih, List.forall_mem_cons, and_assoc]

theorem Apart.symm {n m : Node} (h : Apart n m) : Apart m n := by
  cases n <;> cases m <;> trivial

def TidyParts (ns : List Node) : Prop := ns.IsChain Apart ∧ ∀ n ∈ ns, n ≠ .empty ∧ n.Tidy

theorem TidyParts.reverse {ns : List Node} (h : TidyParts ns) : TidyParts ns.reverse := by
  refine ⟨List.isChain_reverse.2 (h.1.imp fun _ _ => Apart.symm), fun n hn => ?_⟩
  exact h.2 n (List.mem_reverse.1 hn)

theorem tidy_ofParts {ns : List Node} (h : TidyParts ns) : (ofParts ns).Tidy := by
  match ns with
  | [] => trivial
  | [n] => exact (h.2 n List.mem_cons_self).2
  | n :: m :: ns =>
    refine ⟨?_, h.1, tidyAll_iff.2 h.2⟩
    simp only [List.length_cons]
    omega

theorem tidyParts_cons {n : Node} {ns : List Node} :
    TidyParts (n :: ns) ↔
      (∀ m ∈ ns.head?, Apart n m) ∧ (n ≠ .empty ∧ n.Tidy) ∧ TidyParts ns := by
  rw [TidyParts, TidyParts, List.isChain_cons, List.forall_mem_cons]
  tauto

theorem tidyParts_addPart {n : Node} {ns : List Node} (hn : n.Tidy) (h : TidyParts ns) :
    TidyParts (addPart n ns) := by
  unfold addPart
  split
  · exact h
  · rename_i cs ds ms
    obtain ⟨hapart, -, hms⟩ := tidyParts_cons.1 h
    refine tidyParts_cons.2 ⟨fun m hm => ?_, ⟨nofun, ?_⟩, hms⟩
    · have := hapart m hm
      cases m <;> trivial
    · rw [Tidy] at hn ⊢
      exact List.append_ne_nil_of_right_ne_nil ds hn
  · rename_i hempty htext
    refine tidyParts_cons.2 ⟨fun m hm => ?_, ⟨hempty, hn⟩, h⟩
    cases n with
    | text cs =>
      cases m with
      | text ds =>
        obtain ⟨ms, rfl⟩ := List.head?_eq_some_iff.1 hm
        exact (htext cs ds ms rfl rfl).elim
      | _ => trivial
    | _ => cases m <;> trivial

theorem chars_of_tidy {s : PointSet} (h : (set s).Tidy) :
    (s.remove (Span.single Point.endOfInput)).settleSurrogates = s := by
  obtain ⟨hend, hsettled⟩ := h
  have hremove : s.remove (Span.single Point.endOfInput) = s := by
    refine PointSet.ext_contains fun p => ?_
    rw [PointSet.contains_remove]
    by_cases hp : (Span.single Point.endOfInput).contains p = true
    · obtain ⟨h1, h2⟩ := Span.contains_iff.1 hp
      obtain rfl : p = Point.endOfInput := le_antisymm (Int.lt_add_one_iff.1 h2) h1
      rw [hend, Bool.false_and]
    · rw [Bool.not_eq_true] at hp
      rw [hp, Bool.not_false, Bool.and_true]
  rw [hremove, hsettled]

end Node

namespace Grammar

/-! ### Sets -/

variable {members : ℤ → Prop} {w : List Char}

/-- Without surrogates and their neighbours there is nothing to settle. -/
theorem settled_iff_of_ascii (h : ∀ p, members p → p < 128) (p : ℤ) :
    Settled members p ↔ members p := by
  rw [Settled]
  split
  · rename_i hp
    have hbounds := Span.contains_iff.1 hp
    simp only [Span.surrogates] at hbounds ⊢
    constructor
    · rintro ⟨hlow, -⟩
      exact absurd (h _ hlow) (by decide)
    · intro hmem
      have := h p hmem
      omega
  · rfl

theorem settled_of_classEscape (h : ClassEscape w members) (p : ℤ) :
    Settled members p ↔ members p := by
  cases h with
  | digit =>
    refine settled_iff_of_ascii (fun p hp => ?_) p
    rw [IsDigit] at hp
    omega
  | blank =>
    refine settled_iff_of_ascii (fun p hp => ?_) p
    rw [IsBlank] at hp
    omega
  | word =>
    refine settled_iff_of_ascii (fun p hp => ?_) p
    rw [IsWord, IsDigit] at hp
    omega
  | notDigit => exact settled_settled_iff _ p
  | notBlank => exact settled_settled_iff _ p
  | notWord => exact settled_settled_iff _ p

theorem settled_of_isClass {depth : ℕ} (h : IsClass depth w members) (p : ℤ) :
    Settled members p ↔ members p := by
  cases h with
  | @mk _ _ _ negated _ _ _ _ =>
    cases negated <;> exact settled_settled_iff _ p

theorem settled_isCodePoint (p : ℤ) : Settled IsCodePoint p ↔ IsCodePoint p := by
  constructor
  · exact Settled.isCodePoint fun _ hp => hp
  · intro hp
    rw [Settled]
    split
    · constructor <;> (rw [IsCodePoint]; decide)
    · exact hp

theorem tidy_set {s : PointSet} (hs : ∀ p, s.contains p = true ↔ members p)
    (hcode : ∀ p, members p → IsCodePoint p) (hsettled : ∀ p, Settled members p ↔ members p) :
    (Node.set s).Tidy := by
  rw [Node.Tidy]
  constructor
  · rw [← Bool.not_eq_true, hs]
    intro h
    exact absurd (hcode _ h).1 (by decide)
  · refine PointSet.ext_contains fun p => Bool.eq_iff_iff.2 ?_
    rw [contains_settled hs, hsettled, hs]

/-! ### Trees -/

theorem Quantifier.counts {min : ℕ} {max : Option ℕ} (h : Quantifier w min max) :
    min < 2 ^ 32 ∧ ∀ m, max = some m → min ≤ m ∧ m < 2 ^ 32 := by
  cases h with
  | star => simp
  | plus => simp
  | option => simp
  | exactly h => simpa using h.2.2
  | atLeast h => simpa using h.2.2
  | bounded hm hn h => simpa using ⟨hm.2.2, h, hn.2.2⟩

theorem Opening.numbered_cons {next : ℕ} {id : Option GroupId} (h : Opening next w id) :
    Node.Numbered next id.toList := by
  cases h <;> simp [Node.Numbered]

theorem Opening.isName {next : ℕ} {id : GroupId} (h : Opening next w (some id)) :
    ∀ s ∈ id.name?, IsName s := by
  cases h with
  | numbered => nofun
  | named h =>
    rintro s ⟨⟩
    exact h
  | lettered h =>
    rintro s ⟨⟩
    exact h

theorem Opening.tidy {next : ℕ} {id : Option GroupId} (h : Opening next w id) {n : Node}
    (hn : n.Tidy) : (n.inGroup id).Tidy := by
  cases id with
  | none => exact hn
  | some id => exact ⟨h.isName, hn⟩

mutual

theorem tidy_union {depth extra next : ℕ} {w : List Char} {n : Node} :
    UnionTree depth extra next w n → n.Tidy ∧ Node.Numbered next n.groups
  | .single h => by
    obtain ⟨hns, hnum⟩ := tidy_concat h
    rw [Node.groups_ofParts]
    exact ⟨Node.tidy_ofParts hns.reverse, hnum⟩
  | .more h hv => by
    obtain ⟨hn, hnum⟩ := tidy_union h
    obtain ⟨hns, hnum'⟩ := tidy_concat hv
    rw [Node.groups, Node.numbered_append, Node.groups_ofParts]
    exact ⟨⟨hn, Node.tidy_ofParts hns.reverse⟩, hnum, hnum'⟩

theorem tidy_concat {depth extra next : ℕ} {w : List Char} {ns : List Node} :
    ConcatTree depth extra next w ns →
      Node.TidyParts ns ∧ Node.Numbered next (Node.groupsAll ns.reverse)
  | .nil => ⟨⟨.nil, nofun⟩, trivial⟩
  | .snoc h hv => by
    obtain ⟨hns, hnum⟩ := tidy_concat h
    obtain ⟨hn, hnum'⟩ := tidy_repetition hv
    rw [Node.groupsAll_addPart, Node.numbered_append]
    exact ⟨Node.tidyParts_addPart hn hns, hnum, hnum'⟩

theorem tidy_repetition {depth extra next : ℕ} {bare greedy : Bool} {w : List Char} {n : Node} :
    RepetitionTree depth extra next bare greedy w n → n.Tidy ∧ Node.Numbered next n.groups
  | .term h => tidy_term h
  | .start => ⟨trivial, trivial⟩
  | .quantified h hq _ => by
    obtain ⟨hn, hnum⟩ := tidy_repetition h
    obtain ⟨hmin, hmax⟩ := hq.counts
    exact ⟨⟨hmin, hmax, hn⟩, hnum⟩

theorem tidy_term {depth extra next : ℕ} {w : List Char} {n : Node} :
    TermTree depth extra next w n → n.Tidy ∧ Node.Numbered next n.groups
  | .literal _ => ⟨List.cons_ne_nil _ _, trivial⟩
  | .any =>
    ⟨tidy_set PointSet.contains_codePoints (fun _ hp => hp) settled_isCodePoint, trivial⟩
  | .stop => ⟨trivial, trivial⟩
  | .escape _ => ⟨List.cons_ne_nil _ _, trivial⟩
  | .classEscape h hs =>
    ⟨tidy_set hs (fun _ => isCodePoint_of_classEscape h) (settled_of_classEscape h), trivial⟩
  | .bracketed h hs =>
    ⟨tidy_set hs (isCodePoint_of_isClass h) (settled_of_isClass h), trivial⟩
  | .group hh h => by
    obtain ⟨hn, hnum⟩ := tidy_union h
    rw [Node.groups_inGroup, Node.numbered_append]
    exact ⟨hh.tidy hn, hh.numbered_cons, hnum⟩

end

end Grammar

end PatternAutomata
