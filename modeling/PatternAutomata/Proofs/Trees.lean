import PatternAutomata.Node.Shape
import PatternAutomata.Proofs.ClassReading
import PatternAutomata.Proofs.Meaning

/-!
The grammar of trees has the same written patterns as the grammar of meanings, and the tree of a
form has its meaning. The lemmas on unions, concatenations, repetitions and terms follow the
grammar.
-/

set_option autoImplicit false

namespace PatternAutomata

open Parser.Branch (addPart)

namespace Node

/-- What does not tell whether empty parts are left out and literals merged is not changed by
`addPart`. -/
theorem reverse_addPart {α : Type} (f : List Node → α) (hempty : ∀ ns, f (ns ++ [empty]) = f ns)
    (htext : ∀ ns ds cs, f (ns ++ [text ds] ++ [text cs]) = f (ns ++ [text (ds ++ cs)]))
    (n : Node) (ns : List Node) : f (addPart n ns).reverse = f (ns.reverse ++ [n]) := by
  unfold addPart
  split
  · exact (hempty _).symm
  · rw [List.reverse_cons, List.reverse_cons, htext]
  · rw [List.reverse_cons]

/-! ### Groups -/

theorem groupsAll_append (ns ms : List Node) :
    groupsAll (ns ++ ms) = groupsAll ns ++ groupsAll ms := by
  induction ns with
  | nil => rfl
  | cons n ns ih => rw [List.cons_append, groupsAll, groupsAll, ih, List.append_assoc]

theorem groupsAll_singleton (n : Node) : groupsAll [n] = n.groups := List.append_nil _

theorem groupsAll_addPart (n : Node) (ns : List Node) :
    groupsAll (addPart n ns).reverse = groupsAll ns.reverse ++ n.groups := by
  have hnone : ∀ ns n, groups n = [] → groupsAll (ns ++ [n]) = groupsAll ns := by
    intro ns n hn
    rw [groupsAll_append, groupsAll_singleton, hn, List.append_nil]
  rw [reverse_addPart groupsAll (fun _ => hnone _ _ rfl) fun _ _ _ => ?_, groupsAll_append,
    groupsAll_singleton]
  rw [hnone _ _ rfl, hnone _ _ rfl, hnone _ _ rfl]

theorem groups_ofParts (ns : List Node) : (ofParts ns).groups = groupsAll ns := by
  match ns with
  | [] => rfl
  | [n] => exact (groupsAll_singleton n).symm
  | _ :: _ :: _ => rfl

theorem groups_inGroup (id : Option GroupId) (n : Node) :
    (n.inGroup id).groups = id.toList ++ n.groups := by
  cases id <;> rfl

theorem groupNames_addPart (n : Node) (ns : List Node) :
    (ofParts (addPart n ns).reverse).groupNames =
      (ofParts ns.reverse).groupNames ++ n.groupNames := by
  rw [groupNames, groups_ofParts, groupsAll_addPart, List.filterMap_append, groupNames,
    groups_ofParts, groupNames]

theorem groupNames_inGroup (id : Option GroupId) (n : Node) :
    (n.inGroup id).groupNames = id.toList.filterMap GroupId.name? ++ n.groupNames := by
  rw [groupNames, groups_inGroup, List.filterMap_append, groupNames]

/-! ### Meanings -/

theorem taggedAll_addPart (n : Node) (ns : List Node) (r : Bool) :
    taggedAll (addPart n ns).reverse r = taggedAll ns.reverse r * n.tagged r := by
  have hsnoc : ∀ ns n, taggedAll (ns ++ [n]) r = taggedAll ns r * n.tagged r := by
    intro ns n
    rw [taggedAll_append, taggedAll_singleton]
  rw [reverse_addPart (taggedAll · r) (fun _ => ?_) (fun _ _ _ => ?_), hsnoc]
  · rw [hsnoc, tagged_empty, mul_one]
  · rw [hsnoc, hsnoc, hsnoc, tagged_text_append, mul_assoc]

theorem tagged_ofParts_addPart (n : Node) (ns : List Node) :
    (ofParts (addPart n ns).reverse).tagged = (ofParts ns.reverse).tagged * n.tagged := by
  funext r
  rw [tagged_ofParts, taggedAll_addPart]
  exact congrArg (· * n.tagged r) (tagged_ofParts r _).symm

theorem tagged_inGroup (id : Option GroupId) (n : Node) : (n.inGroup id).tagged = n.tagged := by
  cases id with
  | none => rfl
  | some id => exact Grammar.tagged_group id n

end Node

namespace Grammar

/-! ### Trees of forms -/

theorem exists_opening {head : List Char} {names : List String} (h : GroupHead head names)
    (next : ℕ) : ∃ id, Opening next head id ∧ id.toList.filterMap GroupId.name? = names := by
  cases h with
  | numbered => exact ⟨_, .numbered, rfl⟩
  | plain => exact ⟨_, .plain, rfl⟩
  | named h => exact ⟨_, .named h, rfl⟩
  | lettered h => exact ⟨_, .lettered h, rfl⟩

theorem exists_set_of_isClass {depth : ℕ} {w : List Char} {members : ℤ → Prop}
    (h : IsClass depth w members) : ∃ s : PointSet, ∀ p, s.contains p = true ↔ members p := by
  have hd : Parser.State.initial.depth + depth ≤ depth := (Nat.zero_add depth).le
  obtain ⟨v, -, -, hread⟩ := Parser.arrives_class h .initial [] hd
  obtain ⟨inner, -, hs⟩ := hread 0 0
  exact ⟨inner.value, hs⟩

mutual

theorem exists_unionTree {depth : ℕ} {w : List Char} {names : List String} {l : Meaning} :
    IsUnion depth w names l → ∀ next, ∃ extra n,
      UnionTree depth extra next w n ∧ n.groupNames = names ∧ n.tagged = l
  | .single h, next => by
    obtain ⟨extra, ns, ht, hnames, hl⟩ := exists_concatTree h next
    exact ⟨extra, _, .single ht, hnames, hl⟩
  | .more h hk, next => by
    obtain ⟨extra, n, ht, rfl, rfl⟩ := exists_unionTree h next
    obtain ⟨extra', ns, ht', rfl, rfl⟩ := exists_concatTree hk (next + n.groups.length)
    exact ⟨_, _, .more ht ht', List.filterMap_append, tagged_oneOf rfl rfl⟩

theorem exists_concatTree {depth : ℕ} {w : List Char} {names : List String} {l : Meaning} :
    IsConcat depth w names l → ∀ next, ∃ extra ns, ConcatTree depth extra next w ns ∧
      (Node.ofParts ns.reverse).groupNames = names ∧ (Node.ofParts ns.reverse).tagged = l
  | .nil, _ => ⟨0, [], .nil, rfl, tagged_empty⟩
  | .snoc h hk, next => by
    obtain ⟨extra, ns, ht, rfl, rfl⟩ := exists_concatTree h next
    obtain ⟨extra', bare, n, ht', rfl, rfl⟩ :=
      exists_repetitionTree hk (next + (Node.groupsAll ns.reverse).length)
    exact ⟨_, _, .snoc ht ht', Node.groupNames_addPart n ns, Node.tagged_ofParts_addPart n ns⟩

theorem exists_repetitionTree {depth : ℕ} {greedy : Bool} {w : List Char} {names : List String}
    {l : Meaning} : IsRepetition depth greedy w names l → ∀ next, ∃ extra bare n,
      RepetitionTree depth extra next bare greedy w n ∧ n.groupNames = names ∧ n.tagged = l
  | .term h, next => exists_termTree h next
  | .greedy (m := m) (n := max) h hq hb, next => by
    obtain ⟨extra, bare, n, ht, rfl, rfl⟩ := exists_repetitionTree h next
    have ht' := @RepetitionTree.quantified _ _ _ _ _ false _ _ _ _ _ ht hq hb
    rw [if_neg (by decide), List.append_nil] at ht'
    exact ⟨_, _, _, ht', rfl, tagged_repeated rfl m max false⟩
  | .reluctant (m := m) (n := max) h hq hb, next => by
    obtain ⟨extra, bare, n, ht, rfl, rfl⟩ := exists_repetitionTree h next
    exact ⟨_, _, _, @RepetitionTree.quantified _ _ _ _ _ true _ _ _ _ _ ht hq hb, rfl,
      tagged_repeated rfl m max true⟩

theorem exists_termTree {depth : ℕ} {w : List Char} {names : List String} {l : Meaning} :
    IsTerm depth w names l → ∀ next, ∃ extra bare n,
      RepetitionTree depth extra next bare false w n ∧ n.groupNames = names ∧ n.tagged = l
  | .literal h, _ => ⟨_, _, _, .term (.literal h), rfl, tagged_char _⟩
  | .any, _ => ⟨_, _, _, .term .any, rfl, tagged_set PointSet.contains_codePoints⟩
  | .start, _ => ⟨_, _, _, .start, rfl, tagged_empty⟩
  | .stop, _ => ⟨_, _, _, .term .stop, rfl, tagged_endOfInput⟩
  | .escape h, _ => ⟨_, _, _, .term (.escape h), rfl, tagged_char _⟩
  | .classEscape h, _ => by
    obtain ⟨-, s, -, hs, -⟩ := Parser.arrives_classEscape 0 h
    exact ⟨_, _, _, .term (.classEscape h hs), rfl, tagged_set hs⟩
  | .bracketed h, _ => by
    obtain ⟨s, hs⟩ := exists_set_of_isClass h
    exact ⟨_, _, _, .term (.bracketed h hs), rfl, tagged_set hs⟩
  | .group hh h, next => by
    obtain ⟨id, ho, rfl⟩ := exists_opening hh next
    obtain ⟨extra, n, ht, rfl, rfl⟩ := exists_unionTree h (next + id.toList.length)
    exact ⟨_, _, _, .term (.group ho ht), Node.groupNames_inGroup id n, Node.tagged_inGroup id n⟩

end

/-- A written pattern has a tree with its meaning. -/
theorem exists_isTree {depth : ℕ} {w : List Char} {l : Meaning} (h : IsPattern depth w l) :
    ∃ extra n, IsTree depth extra w n ∧ n.tagged = l := by
  obtain ⟨names, h, hnames⟩ := h
  obtain ⟨extra, n, ht, rfl, hl⟩ := exists_unionTree h 1
  exact ⟨extra, n, ⟨ht, hnames⟩, hl⟩

/-! ### Beginnings -/

/-- A form does not begin with a question mark, so that a group may begin with any of them. -/
theorem head_term {depth extra next : ℕ} {w : List Char} {n : Node} :
    TermTree depth extra next w n → ∃ c v, w = c :: v ∧ c ≠ '?'
  | .literal h => ⟨_, [], rfl, by rintro rfl; exact h (by decide)⟩
  | .any => ⟨'.', [], rfl, by decide⟩
  | .stop => ⟨'$', [], rfl, by decide⟩
  | .escape h => by cases h <;> exact ⟨'\\', _, rfl, by decide⟩
  | .classEscape h _ => by cases h <;> exact ⟨'\\', _, rfl, by decide⟩
  | .bracketed h _ => by
    obtain ⟨hh, -, -⟩ := h
    cases hh <;> exact ⟨'[', _, rfl, by decide⟩
  | .group h _ => by cases h <;> exact ⟨'(', _, rfl, by decide⟩

theorem head_repetition {depth extra next : ℕ} {bare greedy : Bool} {w : List Char} {n : Node} :
    RepetitionTree depth extra next bare greedy w n → ∃ c v, w = c :: v ∧ c ≠ '?'
  | .term h => head_term h
  | .start => ⟨'^', [], rfl, by decide⟩
  | .quantified h _ _ => by
    obtain ⟨c, v, rfl, hc⟩ := head_repetition h
    exact ⟨c, _, rfl, hc⟩

theorem head_concat {depth extra next : ℕ} {w : List Char} {ns : List Node} :
    ConcatTree depth extra next w ns → w.head? ≠ some '?'
  | .nil => by simp
  | .snoc (w := w) h hv => by
    obtain ⟨c, v, rfl, hc⟩ := head_repetition hv
    have := head_concat h
    cases w with
    | nil => simpa using hc
    | cons d ds => exact this

theorem head_union {depth extra next : ℕ} {w : List Char} {n : Node} :
    UnionTree depth extra next w n → w.head? ≠ some '?'
  | .single h => head_concat h
  | .more (w := w) h _ => by
    have := head_union h
    cases w with
    | nil => simp
    | cons d ds => exact this

end Grammar

end PatternAutomata
