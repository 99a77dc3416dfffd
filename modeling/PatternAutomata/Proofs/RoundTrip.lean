import PatternAutomata.Proofs.Printing
import PatternAutomata.Proofs.Reading

/-!
A tree is written as a pattern that is read as a tree with the same meaning. The written form of a
tree is a union of the grammar, and a concatenation or a term where the tree stands in a place that
asks for one.
-/

set_option autoImplicit false

namespace PatternAutomata.Grammar

open Node (Feedable openers)

section Forms

variable {depth : ℕ} {w v : List Char} {names more : List String} {l k : Meaning}

theorem openers_append (w v : List Char) : openers (w ++ v) = openers w + openers v := by
  simp only [openers, List.count_append]
  omega

theorem openers_le_left (h : openers (w ++ v) ≤ depth) : openers w ≤ depth := by
  rw [openers_append] at h
  omega

theorem openers_le_right (h : openers (w ++ v) ≤ depth) : openers v ≤ depth := by
  rw [openers_append] at h
  omega

theorem IsRepetition.concat {greedy : Bool} (h : IsRepetition depth greedy w names l) :
    IsConcat depth w names l := by
  simpa using IsConcat.nil.snoc h

theorem isConcat_append (h : IsConcat depth w names l) :
    {v : List Char} → {more : List String} → {k : Meaning} → IsConcat depth v more k →
      IsConcat depth (w ++ v) (names ++ more) (l * k)
  | _, _, _, .nil => by simpa using h
  | _, _, _, .snoc hv hk => by
    rw [← List.append_assoc, ← List.append_assoc, ← mul_assoc]
    exact (isConcat_append h hv).snoc hk

theorem isUnion_append (h : IsUnion depth w names l) :
    {v : List Char} → {more : List String} → {k : Meaning} → IsUnion depth v more k →
      IsUnion depth (w ++ '|' :: v) (names ++ more) (l + k)
  | _, _, _, .single hv => .more h hv
  | _, _, _, .more hv hk => by
    have := (isUnion_append h hv).more hk
    rwa [List.append_assoc, List.cons_append, List.append_assoc, add_assoc] at this

theorem isTerm_group {head : List Char} (hh : GroupHead head names)
    (h : ∀ d, openers w ≤ d → IsUnion d w more l)
    (hd : openers (head ++ (w ++ [')'])) ≤ depth) :
    IsTerm depth (head ++ (w ++ [')'])) (names ++ more) l := by
  have hopen : 1 ≤ openers head := by
    cases hh <;> (rw [openers, List.count_cons_self]; omega)
  obtain ⟨d, rfl⟩ := Nat.exists_eq_add_of_le' (hopen.trans (openers_le_left hd))
  rw [openers_append, openers_append] at hd
  exact .group hh (h d (by omega))

theorem quantifier_renderQuantifier {min : ℕ} {max : Option ℕ} (hmin : min < 2 ^ 32)
    (hmax : ∀ m, max = some m → min ≤ m ∧ m < 2 ^ 32) :
    Quantifier (Node.renderQuantifier min max) min max := by
  unfold Node.renderQuantifier
  split
  · exact .star
  · exact .plus
  · exact .option
  · simpa using Quantifier.atLeast (isCount_decimal hmin)
  · rename_i n _
    obtain ⟨hle, hn⟩ := hmax n rfl
    split
    · rename_i heq
      subst heq
      exact .exactly (isCount_decimal hmin)
    · simpa using Quantifier.bounded (isCount_decimal hmin) (isCount_decimal hn) hle

end Forms

section Trees

variable {depth : ℕ} {n : Node} {w : List Char} {m : Meaning}

/-- A form that may stand for a tree wherever groups and classes can nest as deep as it needs. -/
structure Written (n : Node) (w : List Char) (m : Meaning) : Prop where
  union {depth : ℕ} (hd : openers w ≤ depth) : IsUnion depth w n.groupNames m
  concat (hn : n.isOneOf = false) {depth : ℕ} (hd : openers w ≤ depth) :
    IsConcat depth w n.groupNames m
  term (hn : n.isAtom = true) {depth : ℕ} (hd : openers w ≤ depth) :
    IsTerm depth w n.groupNames m
  agree : Agree m n.tagged

theorem Written.ofConcat (hn : n.isAtom = false) (ha : Agree m n.tagged)
    (h : ∀ {depth}, openers w ≤ depth → IsConcat depth w n.groupNames m) : Written n w m where
  union hd := .single (h hd)
  concat _ _ hd := h hd
  term ht := by
    rw [hn] at ht
    contradiction
  agree := ha

theorem Written.ofTerm (ha : Agree m n.tagged)
    (h : ∀ {depth}, openers w ≤ depth → IsTerm depth w n.groupNames m) : Written n w m where
  union hd := .single (IsRepetition.term (h hd)).concat
  concat _ _ hd := (IsRepetition.term (h hd)).concat
  term _ _ hd := h hd
  agree := ha

theorem Written.enclosed (h : Written n w m) (hd : openers (Node.enclosed true w) ≤ depth) :
    IsTerm depth (Node.enclosed true w) n.groupNames m := by
  have heq : Node.enclosed true w = ['(', '?', ':'] ++ (w ++ [')']) := by
    simp [Node.enclosed]
  rw [heq] at hd ⊢
  exact isTerm_group .plain (fun _ => h.union) hd

theorem Written.part (h : Written n w m) (hd : openers (Node.enclosed n.isOneOf w) ≤ depth) :
    IsConcat depth (Node.enclosed n.isOneOf w) n.groupNames m := by
  cases hn : n.isOneOf with
  | true =>
    rw [hn] at hd
    exact (IsRepetition.term (h.enclosed hd)).concat
  | false =>
    rw [hn] at hd
    exact h.concat hn hd

theorem Written.operand (h : Written n w m) (hd : openers (Node.enclosed (!n.isAtom) w) ≤ depth) :
    IsTerm depth (Node.enclosed (!n.isAtom) w) n.groupNames m := by
  cases hn : n.isAtom with
  | true =>
    rw [hn] at hd
    exact h.term hn hd
  | false =>
    rw [hn] at hd
    exact h.enclosed hd

theorem isConcat_text (cs : List Char) :
    IsConcat depth (cs.flatMap Node.renderLiteral) [] (Node.text cs).tagged := by
  induction cs with
  | nil =>
    rw [tagged_text_nil]
    exact .nil
  | cons c cs ih =>
    rw [tagged_text_cons]
    exact isConcat_append (IsRepetition.term (isTerm_renderLiteral c)).concat ih

theorem written_text (cs : List Char) :
    Written (.text cs) (cs.flatMap Node.renderLiteral) (Node.text cs).tagged where
  union _ := .single (isConcat_text cs)
  concat _ _ _ := isConcat_text cs
  term hn _ _ := by
    rw [Node.isAtom, beq_iff_eq, List.length_eq_one_iff] at hn
    obtain ⟨c, rfl⟩ := hn
    rw [tagged_char, List.flatMap_singleton]
    exact isTerm_renderLiteral c
  agree := .refl _

def chars (s : PointSet) : PointSet :=
  (s.remove (Span.single Point.endOfInput)).settleSurrogates

theorem contains_chars_iff (s : PointSet) {p : ℤ} (hp : Feedable p) :
    (chars s).contains p = true ↔ s.contains p = true ∧ p ≠ Point.endOfInput := by
  have hsingle : (Span.single Point.endOfInput).contains p = true ↔ p = Point.endOfInput := by
    rw [Span.contains_iff]
    simp only [Span.single]
    omega
  rw [chars, PointSet.contains_settleSurrogates_of_feedable _ hp, PointSet.contains_remove,
    Bool.and_eq_true, Bool.not_eq_true', ← Bool.not_eq_true, hsingle]

theorem isTerm_chars {s : PointSet} (hd : openers (Node.renderChars (chars s)) ≤ depth) :
    IsTerm depth (Node.renderChars (chars s)) []
      (.onePoint fun p => (chars s).contains p = true) :=
  isTerm_renderChars (PointSet.not_contains_remove_endOfInput s) hd

theorem isUnion_charsOrEnd {s : PointSet}
    (hd : openers ((if (chars s).isEmpty = true then []
      else Node.renderChars (chars s) ++ ['|']) ++ ['$']) ≤ depth) :
    IsUnion depth ((if (chars s).isEmpty = true then []
      else Node.renderChars (chars s) ++ ['|']) ++ ['$']) []
      (.onePoint fun p => (chars s).contains p = true ∨ p = Point.endOfInput) := by
  have hstop : IsConcat depth ['$'] [] (.onePoint (· = Point.endOfInput)) :=
    (IsRepetition.term .stop).concat
  split
  · rename_i hempty
    rw [PointSet.isEmpty_iff] at hempty
    rw [onePoint_congr (b := (· = Point.endOfInput)) (by simp [hempty])]
    exact .single hstop
  · rename_i hempty
    rw [if_neg hempty, List.append_assoc] at hd
    rw [← onePoint_add, List.append_assoc]
    have hchars := IsRepetition.term (isTerm_chars (openers_le_left hd))
    exact .more (.single hchars.concat) hstop

theorem written_set (s : PointSet) : ∃ m, Written (.set s) (Node.renderSet s) m := by
  have hrender : Node.renderSet s = if s.contains Point.endOfInput = true then
      ['(', '?', ':'] ++ (if (chars s).isEmpty = true then [] else
        Node.renderChars (chars s) ++ ['|']) ++ ['$', ')'] else Node.renderChars (chars s) := rfl
  have htagged : (Node.set s).tagged = Meaning.onePoint fun p => s.contains p = true :=
    tagged_set fun _ => Iff.rfl
  rw [hrender]
  split
  · -- No class holds the end of input, which is an alternative to one.
    rename_i hs
    refine ⟨.onePoint fun p => (chars s).contains p = true ∨ p = Point.endOfInput,
      .ofTerm ?_ fun hd => ?_⟩
    · rw [htagged]
      apply Agree.onePoint
      intro p hp
      rw [contains_chars_iff s hp]
      by_cases h : p = Point.endOfInput
      · simp [h, hs]
      · simp [h]
    · have happend : ∀ v : List Char, ['(', '?', ':'] ++ v ++ ['$', ')'] =
          ['(', '?', ':'] ++ ((v ++ ['$']) ++ [')']) := by
        intro v
        simp
      rw [happend] at hd ⊢
      exact isTerm_group .plain (fun _ => isUnion_charsOrEnd) hd
  · rename_i hs
    refine ⟨_, .ofTerm ?_ isTerm_chars⟩
    rw [htagged]
    apply Agree.onePoint
    intro p hp
    rw [contains_chars_iff s hp, and_iff_left_iff_imp]
    rintro h rfl
    exact hs h

theorem groupNames_group (id : GroupId) (n : Node) :
    (Node.group id n).groupNames = id.name?.toList ++ n.groupNames := by
  cases id <;> rfl

theorem groupNames_cons (n : Node) (ns : List Node) :
    (Node.concat (n :: ns)).groupNames = n.groupNames ++ (Node.concat ns).groupNames :=
  List.filterMap_append

theorem written_oneOf {a b : Node} {v : List Char} {k : Meaning} (ha : Written a w m)
    (hb : Written b v k) : Written (.oneOf a b) (w ++ '|' :: v) (m + k) where
  union hd := by
    have hnames : (Node.oneOf a b).groupNames = a.groupNames ++ b.groupNames :=
      List.filterMap_append
    rw [hnames]
    rw [← List.singleton_append] at hd
    exact isUnion_append (ha.union (openers_le_left hd))
      (hb.union (openers_le_right (openers_le_right hd)))
  concat hn := by cases hn
  term hn := by cases hn
  agree := by
    rw [tagged_oneOf rfl rfl]
    exact ha.agree.add hb.agree

theorem written_repeated {min : ℕ} {max : Option ℕ} (h : Written n w m) (lazily : Bool)
    (hmin : min < 2 ^ 32) (hmax : ∀ m, max = some m → min ≤ m ∧ m < 2 ^ 32) :
    Written (.repeated n min max lazily)
      (Node.enclosed (!n.isAtom) w ++ Node.renderQuantifier min max ++
        if lazily then ['?'] else []) (m.repeated min max lazily) := by
  have hq := quantifier_renderQuantifier hmin hmax
  apply Written.ofConcat rfl
  · rw [tagged_repeated rfl]
    exact h.agree.repeated min max lazily
  · intro depth hd
    have ht := IsRepetition.term (h.operand (openers_le_left (openers_le_left hd)))
    cases lazily with
    | true =>
      rw [if_pos rfl, List.append_assoc]
      exact (ht.reluctant hq (by simp)).concat
    | false =>
      rw [if_neg (by decide), List.append_nil]
      exact (ht.greedy hq (by simp)).concat

theorem written_group {id : GroupId} (h : Written n n.render m)
    (hid : ∀ s ∈ id.name?, IsName s) : Written (.group id n) (Node.group id n).render m := by
  obtain ⟨head, hh, hrender⟩ : ∃ head, GroupHead head id.name?.toList ∧
      (Node.group id n).render = head ++ (n.render ++ [')']) := by
    cases id with
    | index i => exact ⟨_, .numbered, by simp [Node.render]⟩
    | name s => exact ⟨_, .named (hid s rfl), by simp [Node.render]⟩
  rw [hrender]
  apply Written.ofTerm
  · rw [tagged_group]
    exact h.agree
  · intro depth hd
    rw [groupNames_group]
    exact isTerm_group hh (fun _ => h.union) hd

mutual

theorem exists_written : (n : Node) → n.Ordered → (∀ s ∈ n.groupNames, IsName s) →
    ∃ m, Written n n.render m
  | .empty, _, _ => by
    refine ⟨1, .ofConcat rfl ?_ fun _ => .nil⟩
    rw [tagged_empty]
    exact .refl 1
  | .endOfInput, _, _ => by
    refine ⟨.onePoint (· = Point.endOfInput), .ofTerm ?_ fun _ => .stop⟩
    rw [tagged_endOfInput]
    exact .refl _
  | .text cs, _, _ => ⟨_, written_text cs⟩
  | .set s, _, _ => by
    rw [Node.render]
    exact written_set s
  | .concat ns, ho, hg => by
    rw [Node.Ordered] at ho
    obtain ⟨m, h, ha⟩ := exists_writtenParts ns ho hg
    rw [Node.render]
    refine ⟨m, .ofConcat rfl ?_ h⟩
    intro r
    rw [ha, Node.tagged_concat]
  | .oneOf a b, ho, hg => by
    rw [Node.Ordered] at ho
    rw [Node.groupNames, Node.groups, List.filterMap_append, List.forall_mem_append] at hg
    obtain ⟨m, ha⟩ := exists_written a ho.1 hg.1
    obtain ⟨k, hb⟩ := exists_written b ho.2 hg.2
    rw [Node.render]
    exact ⟨m + k, written_oneOf ha hb⟩
  | .repeated n min max lazily, ho, hg => by
    rw [Node.Ordered] at ho
    obtain ⟨hmin, hmax, ho⟩ := ho
    obtain ⟨m, h⟩ := exists_written n ho hg
    rw [Node.render]
    exact ⟨m.repeated min max lazily, written_repeated h lazily hmin hmax⟩
  | .group id n, ho, hg => by
    rw [Node.Ordered] at ho
    rw [groupNames_group, List.forall_mem_append] at hg
    obtain ⟨m, h⟩ := exists_written n ho hg.2
    exact ⟨m, written_group h fun s hs => hg.1 s (Option.mem_toList.2 hs)⟩

theorem exists_writtenParts : (ns : List Node) → Node.OrderedAll ns →
    (∀ s ∈ (Node.concat ns).groupNames, IsName s) →
    ∃ m, (∀ {depth}, openers (Node.renderParts ns) ≤ depth →
      IsConcat depth (Node.renderParts ns) (Node.concat ns).groupNames m) ∧
      Agree m (Node.taggedAll ns)
  | [], _, _ => ⟨1, fun _ => .nil, fun _ => rfl⟩
  | n :: ns, ho, hg => by
    obtain ⟨hn, hns⟩ := ho
    rw [groupNames_cons, List.forall_mem_append] at hg
    obtain ⟨m, h⟩ := exists_written n hn hg.1
    obtain ⟨k, hk, ha⟩ := exists_writtenParts ns hns hg.2
    refine ⟨m * k, fun hd => ?_, h.agree.mul ha⟩
    rw [groupNames_cons]
    rw [Node.renderParts] at hd ⊢
    exact isConcat_append (h.part (openers_le_left hd)) (hk (openers_le_right hd))

end

end Trees

end PatternAutomata.Grammar

namespace PatternAutomata.Node

/-- The written form of a tree is read, wherever groups and classes may nest as often as it opens
them, and as a tree with the same words, whose points are consumed reluctantly in the same way. -/
theorem parse_toText {n : Node} {limit : ℕ} (h : n.Printable)
    (hl : openers n.toText.toList ≤ limit) :
    ∃ n', Parser.parse limit n.toText = .ok n' ∧ ∀ w : List (ℤ × Bool), (∀ x ∈ w, Feedable x.1) →
      (w ∈ n'.taggedWords ↔ w ∈ n.taggedWords) := by
  obtain ⟨m, hm⟩ := Grammar.exists_written n h.ordered h.names
  rw [toText, String.toList_ofList] at hl
  obtain ⟨n', hn, ht⟩ := Parser.exists_parseChars ⟨n.groupNames, hm.union hl, h.distinct⟩
  refine ⟨n', ?_, fun w hw => ?_⟩
  · rw [Parser.parse, toText, String.toList_ofList]
    exact hn
  · rw [taggedWords, ht]
    exact hm.agree.mem_iff hw

def lettersOrGroup : Node :=
  repeated (oneOf (set (.ofSpans [.single Point.endOfInput, .ofChars 'a' 'c']))
    (group (.name "x") (text ['(']))) 1 (some 3) true

theorem printable_lettersOrGroup : lettersOrGroup.Printable where
  ordered := by simp [lettersOrGroup, Ordered]
  distinct := by decide
  names := by
    intro s hs
    obtain rfl : s = "x" := by simpa [lettersOrGroup, groupNames, groups, GroupId.name?] using hs
    refine ⟨by decide, ?_⟩
    intro c hc
    obtain rfl : c = 'x' := by simpa using hc
    exact .inl (by decide)

theorem toText_lettersOrGroup :
    lettersOrGroup.toText = "(?:(?:[a-c]|$)|(?<x>\\())\x7b1,3\x7d?" := by
  rw [toText]
  decide +kernel

theorem parse_toText_lettersOrGroup :
    ∃ n', Parser.parse 5 "(?:(?:[a-c]|$)|(?<x>\\())\x7b1,3\x7d?" = .ok n' ∧
      ∀ w : List (ℤ × Bool), (∀ x ∈ w, Feedable x.1) →
        (w ∈ n'.taggedWords ↔ w ∈ lettersOrGroup.taggedWords) := by
  have hl : openers lettersOrGroup.toText.toList ≤ 5 := by
    rw [toText_lettersOrGroup]
    decide
  have := parse_toText printable_lettersOrGroup hl
  rwa [toText_lettersOrGroup] at this

end PatternAutomata.Node
