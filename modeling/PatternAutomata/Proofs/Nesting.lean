import PatternAutomata.Node.Printer
import PatternAutomata.Proofs.Tidy

/-!
How deep groups and classes nest in the written form of a tree that was read: as deep as they may in
the pattern, and what the written form adds. The lemmas follow the grammar of trees. A part of a
concatenation and an operand of a quantifier may need an enclosure, which counts too.
-/

set_option autoImplicit false

namespace PatternAutomata

open Parser.Branch (addPart)

namespace Node

def partNesting (n : Node) : ℕ := n.nesting + n.isOneOf.toNat

def operandNesting (n : Node) : ℕ := n.nesting + (!n.isAtom).toNat

theorem nesting_le_partNesting (n : Node) : n.nesting ≤ n.partNesting := Nat.le_add_right _ _

theorem partNesting_le_operandNesting (n : Node) : n.partNesting ≤ n.operandNesting := by
  cases n <;> simp [partNesting, operandNesting, isOneOf, isAtom]

theorem operandNesting_le (n : Node) : n.operandNesting ≤ n.nesting + 1 :=
  Nat.add_le_add_left (Bool.toNat_le _) _

variable {bound : ℕ}

theorem nestingAll_le_iff {ns : List Node} :
    nestingAll ns ≤ bound ↔ ∀ n ∈ ns, n.partNesting ≤ bound := by
  induction ns with
  | nil => simp [nestingAll]
  | cons n ns ih => rw [nestingAll, max_le_iff, ih, List.forall_mem_cons, partNesting]

theorem nesting_ofParts_le {ns : List Node} (h : ∀ n ∈ ns, n.partNesting ≤ bound) :
    (ofParts ns).nesting ≤ bound := by
  match ns with
  | [] => exact Nat.zero_le _
  | [n] => exact n.nesting_le_partNesting.trans (h n List.mem_cons_self)
  | _ :: _ :: _ => exact nestingAll_le_iff.2 h

theorem partNesting_of_mem_addPart {n : Node} {ns : List Node} (hn : n.partNesting ≤ bound)
    (h : ∀ m ∈ ns, m.partNesting ≤ bound) : ∀ m ∈ addPart n ns, m.partNesting ≤ bound := by
  unfold addPart
  split
  · exact h
  · obtain ⟨-, h⟩ := List.forall_mem_cons.1 h
    exact List.forall_mem_cons.2 ⟨Nat.zero_le _, h⟩
  · exact List.forall_mem_cons.2 ⟨hn, h⟩

theorem charsNesting_le (s : PointSet) : charsNesting s ≤ 1 := by
  unfold charsNesting
  split <;> decide

theorem setNesting_of_tidy {s : PointSet} (h : (set s).Tidy) : setNesting s = charsNesting s := by
  rw [setNesting, chars_of_tidy h, h.1]
  rfl

theorem operandNesting_set_le {s : PointSet} (h : (set s).Tidy) : (set s).operandNesting ≤ 1 := by
  rw [operandNesting, nesting, setNesting_of_tidy h, isAtom, h.1]
  exact charsNesting_le s

end Node

namespace Grammar

theorem pos_of_isClass {depth : ℕ} {w : List Char} {members : ℤ → Prop} :
    IsClass depth w members → 0 < depth
  | .mk _ _ _ => Nat.succ_pos _

theorem operandNesting_inGroup_le (id : Option GroupId) (n : Node) :
    (n.inGroup id).operandNesting ≤ n.nesting + 1 := by
  cases id with
  | none => exact n.operandNesting_le
  | some id => exact le_rfl

mutual

theorem nesting_union {depth extra next : ℕ} {w : List Char} {n : Node} :
    UnionTree depth extra next w n → n.nesting ≤ depth + extra
  | .single h => Node.nesting_ofParts_le fun n hn => nesting_concat h n (List.mem_reverse.1 hn)
  | @UnionTree.more _ extra extra' _ _ _ _ _ h hv => by
    have hn := nesting_union h
    have hlast := Node.nesting_ofParts_le fun n hn => nesting_concat hv n (List.mem_reverse.1 hn)
    rw [Node.nesting]
    omega

/-- Parts nest as deep as the whole may, with their enclosures. -/
theorem nesting_concat {depth extra next : ℕ} {w : List Char} {ns : List Node} :
    ConcatTree depth extra next w ns → ∀ n ∈ ns, n.partNesting ≤ depth + extra
  | .nil => nofun
  | @ConcatTree.snoc _ extra extra' _ _ _ _ _ _ n h hv => by
    have hns := nesting_concat h
    have hn := (nesting_repetition hv).1
    refine Node.partNesting_of_mem_addPart (by omega) fun m hm => ?_
    have := hns m hm
    omega

/-- Only a bare repetition asks for one more enclosure where it is repeated. -/
theorem nesting_repetition {depth extra next : ℕ} {bare greedy : Bool} {w : List Char}
    {n : Node} : RepetitionTree depth extra next bare greedy w n →
      n.partNesting ≤ depth + extra ∧ n.operandNesting ≤ depth + extra + bare.toNat
  | .term h => by
    have hn := nesting_term h
    exact ⟨(Node.partNesting_le_operandNesting _).trans hn, Nat.le_add_right_of_le hn⟩
  | .start => ⟨Nat.zero_le _, Nat.le_add_left _ _⟩
  | .quantified (n := n) h _ _ => by
    obtain ⟨-, hn⟩ := nesting_repetition h
    have hnesting : ∀ min max lazily,
        (Node.repeated n min max lazily).nesting = n.operandNesting := fun _ _ _ => rfl
    refine ⟨?_, ?_⟩
    · rw [Node.partNesting, hnesting]
      exact (Nat.add_assoc depth _ _ ▸ hn : _)
    · rw [Node.operandNesting, hnesting]
      exact Nat.add_le_add_right (Nat.add_assoc depth _ _ ▸ hn : _) 1

theorem nesting_term {depth extra next : ℕ} {w : List Char} {n : Node} :
    TermTree depth extra next w n → n.operandNesting ≤ depth + extra
  | .literal _ => Nat.zero_le _
  | .any => by
    have h : (Node.anyChar).operandNesting = 0 := by decide
    omega
  | .stop => Nat.zero_le _
  | .escape _ => Nat.zero_le _
  | .classEscape h hs => by
    have htree : TermTree depth 1 next w _ := .classEscape h hs
    have := Node.operandNesting_set_le (tidy_term htree).1
    omega
  | .bracketed h hs => by
    have hpos := pos_of_isClass h
    have htree : TermTree depth 0 next w _ := .bracketed h hs
    have := Node.operandNesting_set_le (tidy_term htree).1
    omega
  | @TermTree.group depth extra _ _ _ id n _ h => by
    have hn := nesting_union h
    have := operandNesting_inGroup_le id n
    omega

end

end Grammar

end PatternAutomata
