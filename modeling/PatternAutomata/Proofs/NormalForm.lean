import PatternAutomata.Proofs.Derivation
import PatternAutomata.Proofs.NestLimit
import PatternAutomata.Proofs.Nesting
import PatternAutomata.Proofs.RoundTrip
import Mathlib.Algebra.Ring.Nat

/-!
The written form of a tree that was read is read again as a tree with the same written form. The two
trees need not be equal: parts of parts become parts, alternatives nest to the left, and a class of
one character becomes a literal, which merges with its neighbours. None of that changes what has to
be enclosed.
-/

set_option autoImplicit false

namespace PatternAutomata

open Parser.Branch (addPart)

namespace Node

/-! ### Parts -/

/-- How many parts a part is at least, whatever it is merged with: each character counts. -/
def partSize : Node → ℕ
  | empty => 0
  | text cs => cs.length
  | _ => 1

def partsSize (ns : List Node) : ℕ := (ns.map partSize).sum

theorem partsSize_addPart (n : Node) (ns : List Node) :
    partsSize (addPart n ns) = partsSize ns + n.partSize := by
  unfold addPart
  split
  · rfl
  · simp only [partsSize, List.map_cons, List.sum_cons, partSize, List.length_append]
    omega
  · simp only [partsSize, List.map_cons, List.sum_cons]
    omega

theorem renderParts_append (ns ms : List Node) :
    renderParts (ns ++ ms) = renderParts ns ++ renderParts ms := by
  induction ns with
  | nil => rfl
  | cons n ns ih => rw [List.cons_append, renderParts, renderParts, ih, List.append_assoc]

theorem renderParts_singleton (n : Node) :
    renderParts [n] = enclosed n.isOneOf n.render := List.append_nil _

theorem renderParts_addPart (n : Node) (ns : List Node) :
    renderParts (addPart n ns).reverse =
      renderParts ns.reverse ++ enclosed n.isOneOf n.render := by
  have hsnoc : ∀ ns n, renderParts (ns ++ [n]) = renderParts ns ++ enclosed n.isOneOf n.render := by
    intro ns n
    rw [renderParts_append, renderParts_singleton]
  rw [reverse_addPart renderParts (fun _ => ?_) (fun _ _ _ => ?_), hsnoc]
  · rw [hsnoc]
    exact List.append_nil _
  · rw [hsnoc, hsnoc, hsnoc, List.append_assoc]
    simp only [isOneOf, enclosed, render, Bool.false_eq_true, if_false, List.flatMap_append]

theorem ofParts_addPart_nil (n : Node) : ofParts (addPart n []).reverse = n := by
  unfold addPart
  split
  · rfl
  · contradiction
  · rfl

theorem partSize_pos_of_isAtom {n : Node} (h : n.isAtom = true) : 0 < n.partSize := by
  cases n with
  | text cs =>
    rw [isAtom, beq_iff_eq] at h
    rw [partSize, h]
    exact Nat.one_pos
  | endOfInput => exact Nat.one_pos
  | set s => exact Nat.one_pos
  | group id n => exact Nat.one_pos
  | _ => cases h

/-- Trees with one written form, which has to be enclosed in the same places. -/
structure Same (n n' : Node) : Prop where
  render : n'.render = n.render
  groups : n'.groups = n.groups
  isAtom : n'.isAtom = n.isAtom
  isOneOf : n'.isOneOf = n.isOneOf

theorem Same.refl (n : Node) : Same n n := ⟨rfl, rfl, rfl, rfl⟩

theorem ofParts_spec {ns : List Node} (h : 2 ≤ partsSize ns) :
    (ofParts ns).render = renderParts ns ∧ (ofParts ns).isAtom = false ∧
      (ofParts ns).isOneOf = false := by
  -- A single part counts twice only if it is a literal of two characters or more.
  match ns with
  | [] => exact absurd h (by decide)
  | [n] =>
    have h : 2 ≤ n.partSize := h
    cases n with
    | text cs =>
      refine ⟨(List.append_nil _).symm, ?_, rfl⟩
      have h : 2 ≤ cs.length := h
      rw [ofParts, isAtom, beq_eq_false_iff_ne]
      omega
    | empty => exact absurd h (by decide)
    | _ => exact absurd h (by decide : ¬ 2 ≤ 1)
  | _ :: _ :: _ => exact ⟨rfl, rfl, rfl⟩

end Node

namespace Grammar

open Node (Same partsSize)

variable {depth extra extra' next : ℕ} {w v : List Char}

/-! ### Sequences -/

/-- The parts of one sequence and another come together, up to literals that merge. -/
theorem concatTree_append {ns : List Node} (h : ConcatTree depth extra next w ns) :
    {extra' behind : ℕ} → {v : List Char} → {ms : List Node} →
      ConcatTree depth extra' behind v ms →
      behind = next + (Node.groupsAll ns.reverse).length →
      ∃ extra ks, ConcatTree depth extra next (w ++ v) ks ∧
        Node.renderParts ks.reverse = Node.renderParts ns.reverse ++ Node.renderParts ms.reverse ∧
        Node.groupsAll ks.reverse = Node.groupsAll ns.reverse ++ Node.groupsAll ms.reverse ∧
        partsSize ks = partsSize ns + partsSize ms
  | _, _, _, _, .nil, _ => ⟨extra, ns, by simpa using h, (List.append_nil _).symm,
      (List.append_nil _).symm, rfl⟩
  | _, _, _, _, @ConcatTree.snoc _ _ _ _ _ _ _ _ _ n hv hk, heq => by
    obtain ⟨extra, ks, ht, hrender, hgroups, hsize⟩ := concatTree_append h hv heq
    -- The groups of the last part count on from those of both sequences before it.
    rw [heq, Nat.add_assoc, ← List.length_append, ← hgroups] at hk
    refine ⟨_, addPart n ks, by simpa using ht.snoc hk, ?_, ?_, ?_⟩
    · rw [Node.renderParts_addPart, Node.renderParts_addPart, hrender, List.append_assoc]
    · rw [Node.groupsAll_addPart, Node.groupsAll_addPart, hgroups, List.append_assoc]
    · rw [Node.partsSize_addPart, Node.partsSize_addPart, hsize, Nat.add_assoc]

theorem unionTree_append {n : Node} (h : UnionTree depth extra next w n) :
    {extra' behind : ℕ} → {v : List Char} → {m : Node} →
      UnionTree depth extra' behind v m → behind = next + n.groups.length →
      ∃ extra a b, UnionTree depth extra next (w ++ '|' :: v) (.oneOf a b) ∧
        (Node.oneOf a b).render = n.render ++ '|' :: m.render ∧
        (Node.oneOf a b).groups = n.groups ++ m.groups
  | _, _, _, _, .single hv, heq => by
    rw [heq] at hv
    exact ⟨_, _, _, .more h hv, by rw [Node.render], rfl⟩
  | _, _, _, _, @UnionTree.more _ _ _ _ _ _ m ms hv hk, heq => by
    obtain ⟨extra, a, b, ht, hrender, hgroups⟩ := unionTree_append h hv heq
    rw [heq, Nat.add_assoc, ← List.length_append, ← hgroups] at hk
    refine ⟨_, _, _, by simpa using ht.more hk, ?_, ?_⟩
    · rw [Node.render, hrender, Node.render]
      simp
    · rw [Node.groups, hgroups, Node.groups, List.append_assoc]

/-- A text that is read as parts which are written as it is. -/
structure IsSequence (depth next : ℕ) (w : List Char) (ids : List GroupId) (ns : List Node) :
    Prop where
  tree : ∃ extra, ConcatTree depth extra next w ns
  render : Node.renderParts ns.reverse = w
  groups : Node.groupsAll ns.reverse = ids

theorem IsSequence.append {ids more : List GroupId} {ns ms : List Node}
    (h : IsSequence depth next w ids ns) (hv : IsSequence depth (next + ids.length) v more ms) :
    ∃ ks, IsSequence depth next (w ++ v) (ids ++ more) ks ∧
      partsSize ks = partsSize ns + partsSize ms := by
  obtain ⟨⟨_, ht⟩, rfl, rfl⟩ := h
  obtain ⟨⟨_, ht'⟩, rfl, rfl⟩ := hv
  obtain ⟨extra, ks, hk, hrender, hgroups, hsize⟩ := concatTree_append ht ht' rfl
  exact ⟨ks, ⟨⟨extra, hk⟩, hrender, hgroups⟩, hsize⟩

theorem isSequence_nil : IsSequence depth next [] [] [] := ⟨⟨0, .nil⟩, rfl, rfl⟩

theorem isSequence_repetition {bare greedy : Bool} {n : Node}
    (h : RepetitionTree depth extra next bare greedy w n)
    (hw : Node.enclosed n.isOneOf n.render = w) :
    IsSequence depth next w n.groups (addPart n []) where
  tree := ⟨_, ConcatTree.nil.snoc h⟩
  render := (Node.renderParts_addPart n []).trans hw
  groups := Node.groupsAll_addPart n []

/-! ### Forms -/

/-- The written form of a tree is read as one that is written in the same way: as a union, as a
concatenation or as a term where the tree may stand for one. -/
structure Stable (next : ℕ) (n : Node) : Prop where
  union (depth : ℕ) (hd : n.nesting ≤ depth) :
    ∃ extra n', UnionTree depth extra next n.render n' ∧ Same n n'
  concat (hn : n.isOneOf = false) (depth : ℕ) (hd : n.nesting ≤ depth) :
    ∃ ns, IsSequence depth next n.render n.groups ns ∧ (n ≠ .empty → 0 < partsSize ns)
  term (hn : n.isAtom = true) (depth : ℕ) (hd : n.nesting ≤ depth) :
    ∃ extra n', TermTree depth extra next n.render n' ∧ Same n n'

section Forms

variable {n : Node}

theorem Stable.ofRepetition (hn : n.isOneOf = false)
    (h : ∀ depth, n.nesting ≤ depth → ∃ extra bare greedy n',
      RepetitionTree depth extra next bare greedy n.render n' ∧ Same n n' ∧ 0 < n'.partSize)
    (hterm : n.isAtom = true → ∀ depth, n.nesting ≤ depth → ∃ extra n',
      TermTree depth extra next n.render n' ∧ Same n n') : Stable next n where
  union depth hd := by
    obtain ⟨extra, bare, greedy, n', ht, hs, -⟩ := h depth hd
    have hu := UnionTree.single (ConcatTree.nil.snoc ht)
    rw [Node.ofParts_addPart_nil] at hu
    exact ⟨_, n', hu, hs⟩
  concat _ depth hd := by
    obtain ⟨extra, bare, greedy, n', ht, hs, hsize⟩ := h depth hd
    have hw : Node.enclosed n'.isOneOf n'.render = n.render := by
      rw [hs.isOneOf, hn, hs.render]
      rfl
    refine ⟨_, hs.groups ▸ isSequence_repetition ht hw, fun _ => ?_⟩
    rw [Node.partsSize_addPart]
    exact Nat.lt_add_left _ hsize
  term := hterm

theorem Stable.ofTerm (hn : n.isOneOf = false) (ha : n.isAtom = true)
    (h : ∀ depth, n.nesting ≤ depth → ∃ extra n',
      TermTree depth extra next n.render n' ∧ Same n n') : Stable next n := by
  refine .ofRepetition hn (fun depth hd => ?_) fun _ => h
  obtain ⟨extra, n', ht, hs⟩ := h depth hd
  exact ⟨extra, false, false, n', .term ht, hs,
    Node.partSize_pos_of_isAtom (hs.isAtom.trans ha)⟩

theorem Stable.inGroup {head : List Char} {id : Option GroupId} (ho : Opening next head id)
    (h : Stable (next + id.toList.length) n) (hd : n.nesting + 1 ≤ depth) :
    ∃ extra n', TermTree depth extra next (head ++ (n.render ++ [')'])) (n'.inGroup id) ∧
      Same n n' := by
  obtain ⟨d, rfl⟩ := Nat.exists_eq_add_of_le' (Nat.le_of_add_left_le hd)
  obtain ⟨extra, n', ht, hs⟩ := h.union d (Nat.le_of_add_le_add_right hd)
  exact ⟨extra, n', .group ho ht, hs⟩

theorem Stable.enclosed (h : Stable next n) (hd : n.nesting + 1 ≤ depth) :
    ∃ extra n', TermTree depth extra next (Node.enclosed true n.render) n' ∧ Same n n' := by
  rw [Node.enclosed, if_pos rfl, List.append_assoc]
  exact h.inGroup .plain hd

theorem Stable.operand (h : Stable next n) (hd : n.operandNesting ≤ depth) :
    ∃ extra n', TermTree depth extra next (Node.enclosed (!n.isAtom) n.render) n' ∧
      Same n n' := by
  rw [Node.operandNesting] at hd
  cases hn : n.isAtom with
  | true =>
    rw [hn] at hd
    exact h.term hn depth hd
  | false =>
    rw [hn] at hd
    exact h.enclosed hd

theorem Stable.part (h : Stable next n) (hd : n.partNesting ≤ depth) :
    ∃ ns, IsSequence depth next (Node.enclosed n.isOneOf n.render) n.groups ns ∧
      (n ≠ .empty → 0 < partsSize ns) := by
  rw [Node.partNesting] at hd
  cases hn : n.isOneOf with
  | true =>
    rw [hn] at hd
    obtain ⟨extra, n', ht, hs⟩ := h.enclosed hd
    have hw : Node.enclosed n'.isOneOf n'.render = Node.enclosed true n.render := by
      rw [hs.isOneOf, hn, hs.render]
    refine ⟨_, hs.groups ▸ isSequence_repetition (.term ht) hw, fun _ => ?_⟩
    rw [Node.partsSize_addPart]
    have hone : n'.isOneOf = true := hs.isOneOf.trans hn
    cases n' <;> first | exact Nat.one_pos | cases hone
  | false =>
    rw [hn] at hd
    exact h.concat hn depth hd

/-! ### Trees -/

theorem termTree_renderLiteral (c : Char) :
    TermTree depth 0 next (Node.renderLiteral c) (.text [c]) := by
  rcases renderLiteral_cases c with ⟨hc, h⟩ | h
  · rw [hc]
    exact .literal h
  · exact .escape h

theorem concatTree_chars {cs ds : List Char} (h : ConcatTree depth 0 next w [.text ds]) :
    ConcatTree depth 0 next (w ++ cs.flatMap Node.renderLiteral) [.text (ds ++ cs)] := by
  induction cs generalizing w ds with
  | nil => simpa using h
  | cons c cs ih =>
    have hc : ConcatTree depth 0 next (w ++ Node.renderLiteral c) [.text (ds ++ [c])] :=
      h.snoc (.term (termTree_renderLiteral c))
    simpa using ih hc

theorem concatTree_text {cs : List Char} (h : cs ≠ []) :
    ConcatTree depth 0 next (cs.flatMap Node.renderLiteral) [.text cs] := by
  cases cs with
  | nil => contradiction
  | cons c cs =>
    have hc : ConcatTree depth 0 next (Node.renderLiteral c) [.text [c]] :=
      ConcatTree.nil.snoc (.term (termTree_renderLiteral c))
    exact concatTree_chars hc

theorem stable_empty : Stable next .empty where
  union _ _ := ⟨_, _, .single .nil, .refl _⟩
  concat _ _ _ := ⟨[], isSequence_nil, fun h => absurd rfl h⟩
  term h := by cases h

theorem stable_text {cs : List Char} (h : cs ≠ []) : Stable next (.text cs) where
  union _ _ := ⟨_, _, .single (concatTree_text h), .refl _⟩
  concat _ _ _ := by
    refine ⟨_, ⟨⟨_, concatTree_text h⟩, List.append_nil _, rfl⟩, fun _ => ?_⟩
    exact List.length_pos_iff.2 h
  term hn _ _ := by
    rw [Node.isAtom, beq_iff_eq, List.length_eq_one_iff] at hn
    obtain ⟨c, rfl⟩ := hn
    refine ⟨0, .text [c], ?_, .refl _⟩
    rw [Node.render, List.flatMap_singleton]
    exact termTree_renderLiteral c

/-- A set is written as a class, unless a point or one character is written for it. -/
theorem stable_set {s : PointSet} (h : (Node.set s).Tidy) : Stable next (.set s) := by
  have hatom : (Node.set s).isAtom = true := by rw [Node.isAtom, h.1]; rfl
  have hrender : (Node.set s).render = Node.renderChars s := by
    rw [Node.render, Node.renderSet, Node.chars_of_tidy h, h.1]
    rfl
  refine .ofTerm rfl hatom fun depth hd => ?_
  rw [Node.nesting, Node.setNesting_of_tidy h, Node.charsNesting] at hd
  by_cases hall : s = PointSet.codePoints
  · rw [hrender, Node.renderChars, if_pos hall]
    exact ⟨0, .anyChar, .any, by rw [hall]; exact .refl _⟩
  cases hc : s.char? with
  | some c =>
    have hr : (Node.set s).render = Node.renderLiteral c := by
      rw [hrender, Node.renderChars, if_neg hall, hc]
    rw [hr]
    refine ⟨0, .text [c], termTree_renderLiteral c, ⟨?_, rfl, hatom.symm, rfl⟩⟩
    rw [hr, Node.render, List.flatMap_singleton]
  | none =>
    obtain ⟨depth, rfl⟩ : ∃ d, depth = d + 1 := by
      apply Nat.exists_eq_add_of_le'
      simpa [hall, hc] using hd
    have hclass := isClass_renderChars h.1 (by rwa [h.2]) (by rwa [h.2])
    rw [h.2] at hclass
    obtain ⟨w, members, hw, hclass, hmembers⟩ := hclass
    rw [hrender, hw]
    exact ⟨0, .set s, .bracketed (hclass depth) hmembers, .refl _⟩

theorem stable_concat {ns : List Node} (hns : 2 ≤ ns.length)
    (h : ∀ depth, Node.nestingAll ns ≤ depth → ∃ ks,
      IsSequence depth next (Node.renderParts ns) (Node.groupsAll ns) ks ∧
        ns.length ≤ partsSize ks) : Stable next (.concat ns) where
  union depth hd := by
    obtain ⟨ks, ⟨⟨extra, ht⟩, hrender, hgroups⟩, hsize⟩ := h depth hd
    have hreverse : partsSize ks.reverse = partsSize ks := by
      rw [partsSize, List.map_reverse, List.sum_reverse, partsSize]
    obtain ⟨hr, ha, ho⟩ := @Node.ofParts_spec ks.reverse (by omega)
    refine ⟨extra, _, .single ht, ⟨hr.trans hrender, ?_, ha, ho⟩⟩
    rw [Node.groups_ofParts, hgroups, Node.groups]
  concat _ depth hd := by
    obtain ⟨ks, hk, hsize⟩ := h depth hd
    exact ⟨ks, hk, fun _ => by omega⟩
  term hn := by cases hn

theorem stable_repeated {min : ℕ} {max : Option ℕ} (h : Stable next n) (lazily : Bool)
    (hmin : min < 2 ^ 32) (hmax : ∀ m, max = some m → min ≤ m ∧ m < 2 ^ 32) :
    Stable next (.repeated n min max lazily) := by
  refine .ofRepetition rfl (fun depth hd => ?_) nofun
  obtain ⟨extra, n', ht, hs⟩ := h.operand hd
  have hr := @RepetitionTree.quantified _ _ _ _ _ lazily _ _ _ _ _ (.term ht)
    (quantifier_renderQuantifier hmin hmax) nofun
  rw [← List.append_assoc, ← Node.render] at hr
  refine ⟨_, _, _, _, hr, ⟨?_, hs.groups, rfl, rfl⟩, Nat.one_pos⟩
  rw [Node.render, Node.render, hs.isAtom, hs.render]

theorem stable_oneOf {a b : Node} (ha : Stable next a)
    (hb : Stable (next + a.groups.length) b) : Stable next (.oneOf a b) where
  union depth hd := by
    rw [Node.nesting] at hd
    obtain ⟨extra, a', hta, hsa⟩ := ha.union depth (le_of_max_le_left hd)
    obtain ⟨extra', b', htb, hsb⟩ := hb.union depth (le_of_max_le_right hd)
    obtain ⟨_, c, d, ht, hrender, hgroups⟩ := unionTree_append hta htb (by rw [hsa.groups])
    rw [← Node.render] at ht
    refine ⟨_, _, ht, ⟨?_, ?_, rfl, rfl⟩⟩
    · rw [hrender, hsa.render, hsb.render, Node.render]
    · rw [hgroups, hsa.groups, hsb.groups, Node.groups]
  concat hn := by cases hn
  term hn := by cases hn

theorem stable_group {id : GroupId} (hid : ∀ s ∈ id.name?, IsName s)
    (hnext : ∀ i, id = .index i → i = next) (h : Stable (next + 1) n) :
    Stable next (.group id n) := by
  obtain ⟨head, ho, hrender⟩ : ∃ head, Opening next head (some id) ∧
      ∀ n : Node, (Node.group id n).render = head ++ (n.render ++ [')']) := by
    cases id with
    | index i =>
      obtain rfl := hnext i rfl
      exact ⟨_, .numbered, fun n => by simp [Node.render]⟩
    | name s => exact ⟨_, .named (hid s rfl), fun n => by simp [Node.render]⟩
  refine .ofTerm rfl rfl fun depth hd => ?_
  rw [Node.nesting] at hd
  obtain ⟨extra, n', ht, hs⟩ := h.inGroup ho hd
  refine ⟨extra, .group id n', ?_, ⟨?_, ?_, rfl, rfl⟩⟩
  · rwa [hrender]
  · rw [hrender, hrender, hs.render]
  · rw [Node.groups, Node.groups, hs.groups]

mutual

theorem stable_of_tidy : (n : Node) → (next : ℕ) → n.Tidy → Node.Numbered next n.groups →
    Stable next n
  | .empty, _, _, _ => stable_empty
  | .endOfInput, _, _, _ => .ofTerm rfl rfl fun _ _ => ⟨0, .endOfInput, .stop, .refl _⟩
  | .text _, _, h, _ => stable_text h
  | .set _, _, h, _ => stable_set h
  | .concat ns, next, h, hnum => stable_concat h.1 (exists_isSequence ns next h.2.2 hnum)
  | .oneOf a b, next, h, hnum => by
    rw [Node.groups, Node.numbered_append] at hnum
    exact stable_oneOf (stable_of_tidy a next h.1 hnum.1) (stable_of_tidy b _ h.2 hnum.2)
  | .repeated n min max lazily, next, h, hnum =>
    stable_repeated (stable_of_tidy n next h.2.2 hnum) lazily h.1 h.2.1
  | .group id n, next, h, hnum =>
    stable_group h.1 hnum.1 (stable_of_tidy n (next + 1) h.2 hnum.2)

theorem exists_isSequence : (ns : List Node) → (next : ℕ) → Node.TidyAll ns →
    Node.Numbered next (Node.groupsAll ns) → ∀ depth, Node.nestingAll ns ≤ depth →
    ∃ ks, IsSequence depth next (Node.renderParts ns) (Node.groupsAll ns) ks ∧
      ns.length ≤ partsSize ks
  | [], _, _, _, _, _ => ⟨[], isSequence_nil, Nat.zero_le _⟩
  | n :: ns, next, h, hnum, depth, hd => by
    rw [Node.groupsAll, Node.numbered_append] at hnum
    obtain ⟨hempty, hn, hns⟩ := h
    obtain ⟨ms, hm, hpos⟩ := (stable_of_tidy n next hn hnum.1).part (le_of_max_le_left hd)
    obtain ⟨ks, hk, hlength⟩ := exists_isSequence ns _ hns hnum.2 depth (le_of_max_le_right hd)
    obtain ⟨js, hj, hsize⟩ := hm.append hk
    refine ⟨js, hj, ?_⟩
    have := hpos hempty
    rw [List.length_cons]
    omega

end

end Forms

/-- The written form of a tidy tree has a tree that is written in the same way. -/
theorem exists_isTree_render {n : Node} (ht : n.Tidy) (hnum : Node.Numbered 1 n.groups)
    (hnames : n.groupNames.Nodup) (hd : n.nesting ≤ depth) :
    ∃ extra n', IsTree depth extra n.render n' ∧ Same n n' := by
  obtain ⟨extra, n', hu, hs⟩ := (stable_of_tidy n 1 ht hnum).union depth hd
  refine ⟨extra, n', ⟨hu, ?_⟩, hs⟩
  rw [Node.groupNames, hs.groups]
  exact hnames

end Grammar

namespace Parser

open Grammar (IsTree)
open Node (Same)

variable {limit limit' : ℕ} {pattern : String} {n n' : Node}

/-- The written form of a tree that was read is read again, if it may nest as deep as it does. -/
theorem exists_parse_toText (h : parse limit pattern = .ok n) (hl : n.nesting ≤ limit') :
    ∃ n', parse limit' n.toText = .ok n' ∧ Same n n' := by
  obtain ⟨extra, hu, hnames⟩ := exists_isTree_of_parseChars h
  obtain ⟨htidy, hnum⟩ := Grammar.tidy_union hu
  obtain ⟨extra', n', ht, hs⟩ := Grammar.exists_isTree_render htidy hnum hnames hl
  refine ⟨n', ?_, hs⟩
  rw [parse, Node.toText, String.toList_ofList]
  exact parseChars_of_isTree ht

/-- Whatever limit it is read again with, the tree is the same. -/
theorem same_of_parse_toText (h : parse limit pattern = .ok n)
    (h' : parse limit' n.toText = .ok n') : Same n n' := by
  obtain ⟨m, hm, hs⟩ := exists_parse_toText h (le_max_right limit' n.nesting)
  cases (parse_mono (le_max_left limit' n.nesting) h').symm.trans hm
  exact hs

/-- The written form of a tree that was read is read again wherever groups and classes may nest as
deep as they do in it. That is at most as deep as they may in the pattern, and deeper only by the
enclosures that the written form has and the pattern has not. -/
theorem parse_toText_within (h : parse limit pattern = .ok n) :
    (∃ extra, IsTree limit extra pattern.toList n) ∧
      (∀ limit', n.nesting ≤ limit' → ∃ n', parse limit' n.toText = .ok n') ∧
      ∀ extra, IsTree limit extra pattern.toList n →
        n.nesting ≤ limit + extra ∧ ∃ n', parse (limit + extra) n.toText = .ok n' := by
  have hread : ∀ limit', n.nesting ≤ limit' → ∃ n', parse limit' n.toText = .ok n' :=
    fun _ hl => (exists_parse_toText h hl).imp fun _ => And.left
  refine ⟨exists_isTree_of_parseChars h, hread, fun extra ht => ?_⟩
  have hl := Grammar.nesting_union ht.1
  exact ⟨hl, hread _ hl⟩

open Node (zeroOrMore text oneOf group concat set)

/-- Without a group around it, a repetition that is repeated is enclosed when it is written. -/
theorem parse_toText_exceeds :
    parse 0 "a**" = .ok (zeroOrMore (zeroOrMore (text ['a']))) ∧
      (zeroOrMore (zeroOrMore (text ['a']))).toText = "(?:a*)*" ∧
      parse 0 "(?:a*)*" = .error ⟨.nestLimitExceeded 0, 0⟩ := by
  decide +kernel

theorem parse_toText_within_stacked :
    parse 0 "a**" = .ok (zeroOrMore (zeroOrMore (text ['a']))) ∧
      ∃ n, parse 1 (zeroOrMore (zeroOrMore (text ['a']))).toText = .ok n := by
  have h : parse 0 "a**" = .ok (zeroOrMore (zeroOrMore (text ['a']))) := by decide +kernel
  obtain ⟨-, hread, -⟩ := parse_toText_within h
  exact ⟨h, hread 1 (by decide)⟩

/-- The written form of a tree that was read is a normal form: wherever it is read again, the tree
has the same written form, and its capturing groups have the same numbers and names. -/
theorem parse_toText_normal (h : parse limit pattern = .ok n) :
    (∀ limit', n.nesting ≤ limit' → ∃ n', parse limit' n.toText = .ok n') ∧
      ∀ limit' n', parse limit' n.toText = .ok n' →
        n'.toText = n.toText ∧ n'.groups = n.groups := by
  refine ⟨fun _ hl => (exists_parse_toText h hl).imp fun _ => And.left, fun limit' n' h' => ?_⟩
  have hs := same_of_parse_toText h h'
  exact ⟨congrArg String.ofList hs.render, hs.groups⟩

def nestedRight : Node :=
  oneOf (concat [set (.ofSpan (.single 97)), text ['b']])
    (oneOf (text ['c']) (group (.index 1) (text ['d'])))

def nestedLeft : Node :=
  oneOf (oneOf (text ['a', 'b']) (text ['c'])) (group (.index 1) (text ['d']))

theorem parse_toText_normal_alternatives :
    parse 2 "[a]b|(?:c|(d))" = .ok nestedRight ∧ parse 1 nestedRight.toText = .ok nestedLeft ∧
      nestedLeft.toText = nestedRight.toText ∧ nestedLeft.groups = nestedRight.groups := by
  have h : parse 2 "[a]b|(?:c|(d))" = .ok nestedRight := by decide +kernel
  have h' : parse 1 nestedRight.toText = .ok nestedLeft := by decide +kernel
  exact ⟨h, h', (parse_toText_normal h).2 1 nestedLeft h'⟩

end Parser

end PatternAutomata
