import PatternAutomata.Proofs.PointSet
import PatternAutomata.Proofs.Traces
import PatternAutomata.Language

/-!
Translation of regular expressions to patterns. It fails just on those with a part that patterns
cannot express, and reports the first such part from the left; otherwise the pattern matches the
same words that can be given to a matcher, and repeats lazily what is not repeated greedily.
-/

set_option autoImplicit false

namespace PatternAutomata

/-! ### Words that can be given -/

namespace Node

def feedable (l : Language ℤ) : Language ℤ := related (Keeps Feedable) l

theorem feedable_mul (l m : Language ℤ) : feedable (l * m) = feedable l * feedable m :=
  related_mul (homomorphic_keeps _) l m

theorem feedable_add (l m : Language ℤ) : feedable (l + m) = feedable l + feedable m :=
  related_add l m

theorem feedable_counted (l : Language ℤ) (min : ℕ) (max : Option ℕ) :
    feedable (counted l min max) = counted (feedable l) min max := by
  rw [feedable, ← unrolled_self, related_unrolled (homomorphic_keeps _), unrolled_self, feedable]

theorem words_ofParts (ns : List Node) : (ofParts ns).words = wordsAll ns := by
  match ns with
  | [] => rw [ofParts, words, wordsAll]
  | [n] => rw [ofParts, wordsAll, wordsAll, mul_one]
  | n :: m :: ns => rw [ofParts, words]

theorem words_ofAlternatives (ns : List Node) :
    (ofAlternatives ns).words = (ns.map words).sum := by
  cases ns with
  | nil =>
    rw [ofAlternatives, words, List.map_nil, List.sum_nil]
    apply Language.ext
    rintro w
    refine iff_of_false ?_ (Language.notMem_zero w)
    rintro ⟨p, hp, -⟩
    cases hp
  | cons n ns =>
    rw [ofAlternatives, List.map_cons, List.sum_cons]
    induction ns generalizing n with
    | nil => rw [List.foldl_nil, List.map_nil, List.sum_nil, add_zero]
    | cons m ns ih => rw [List.foldl_cons, ih, words, List.map_cons, List.sum_cons, add_assoc]

end Node

namespace Regex

/-! ### Parts that patterns cannot express -/

mutual

/-- The expression and its parts, from the left; what is made of parts comes before them. -/
def preorder : Regex → List Regex
  | repeated quantifier greedy body => repeated quantifier greedy body :: preorder body
  | group id body => group id body :: preorder body
  | concat parts => concat parts :: preorderAll parts
  | alternation parts => alternation parts :: preorderAll parts
  | e => [e]

def preorderAll : List Regex → List Regex
  | [] => []
  | e :: es => preorder e ++ preorderAll es

end

/-- The expression itself, whatever its parts, has no counterpart for this reason. -/
inductive Obstacle : Regex → Unsupported → Prop
  | byte {b : UInt8} (h : 0x7F < b) : Obstacle (.byte b) .byte
  | byteClass {ranges : List (UInt8 × UInt8)} {r : UInt8 × UInt8} {b : UInt8} (hr : r ∈ ranges)
    (hlow : min r.1.toNat r.2.toNat ≤ b.toNat) (hhigh : b.toNat ≤ max r.1.toNat r.2.toNat)
    (h : 0x7F < b) : Obstacle (.byteClass ranges) .byte
  | startLine : Obstacle .startLine .lineAnchor
  | endLine : Obstacle .endLine .lineAnchor
  | wordBoundary (kind : WordBoundary) : Obstacle (.wordBoundary kind) .wordBoundary

theorem Obstacle.unique {e : Regex} {x y : Unsupported} (hx : Obstacle e x) (hy : Obstacle e y) :
    x = y := by
  cases hx <;> cases hy <;> rfl

def Free (es : List Regex) : Prop := ∀ e ∈ es, ∀ x, ¬ Obstacle e x

/-- The first expression of the list that has no counterpart has none for this reason. -/
def Blocked (es : List Regex) (x : Unsupported) : Prop :=
  ∃ before e after, es = before ++ e :: after ∧ Free before ∧ Obstacle e x

theorem Blocked.not_free {es : List Regex} {x : Unsupported} (h : Blocked es x) : ¬ Free es := by
  obtain ⟨before, e, after, rfl, -, he⟩ := h
  intro hfree
  exact hfree e (List.mem_append_right _ List.mem_cons_self) x he

theorem Blocked.unique {es : List Regex} {x y : Unsupported} (hx : Blocked es x)
    (hy : Blocked es y) : x = y := by
  obtain ⟨before, e, after, rfl, hbefore, he⟩ := hx
  obtain ⟨before', e', after', h, hbefore', he'⟩ := hy
  induction before generalizing before' with
  | nil =>
    cases before' with
    | nil =>
      obtain ⟨rfl, -⟩ := List.cons.inj h
      exact he.unique he'
    | cons f before' =>
      obtain ⟨rfl, -⟩ := List.cons.inj h
      exact absurd he (hbefore' _ List.mem_cons_self x)
  | cons f before ih =>
    cases before' with
    | nil =>
      obtain ⟨rfl, -⟩ := List.cons.inj h
      exact absurd he' (hbefore _ List.mem_cons_self y)
    | cons g before' =>
      exact ih (fun e h => hbefore e (List.mem_cons_of_mem _ h)) before' (List.cons.inj h).2
        fun e h => hbefore' e (List.mem_cons_of_mem _ h)

def Outcome {α : Type} (es : List Regex) : Except Unsupported α → Prop
  | .ok _ => Free es
  | .error x => Blocked es x

section

variable {α β γ : Type} {e : Regex} {es fs : List Regex} {r : Except Unsupported α}

theorem Outcome.map (h : Outcome es r) (f : α → β) : Outcome es (r.map f) := by
  cases r with
  | ok a => exact h
  | error x => exact h

theorem Outcome.cons (he : ∀ x, ¬ Obstacle e x) (h : Outcome es r) : Outcome (e :: es) r := by
  cases r with
  | ok a => exact List.forall_mem_cons.2 ⟨he, h⟩
  | error x =>
    obtain ⟨before, f, after, rfl, hbefore, hf⟩ := h
    exact ⟨e :: before, f, after, rfl, List.forall_mem_cons.2 ⟨he, hbefore⟩, hf⟩

theorem Outcome.append {s : Except Unsupported β} (h : Outcome es r) (hs : Outcome fs s)
    (f : α → β → γ) : Outcome (es ++ fs) (do return f (← r) (← s)) := by
  cases r with
  | error x =>
    obtain ⟨before, f, after, rfl, hbefore, hf⟩ := h
    exact ⟨before, f, after ++ fs, List.append_assoc _ _ _, hbefore, hf⟩
  | ok a =>
    cases s with
    | ok b => exact List.forall_mem_append.2 ⟨h, hs⟩
    | error x =>
      obtain ⟨before, f, after, rfl, hbefore, hf⟩ := hs
      exact ⟨es ++ before, f, after, (List.append_assoc _ _ _).symm,
        List.forall_mem_append.2 ⟨h, hbefore⟩, hf⟩

theorem outcome_ok {a : α} (he : ∀ x, ¬ Obstacle e x) : Outcome [e] (.ok a) :=
  List.forall_mem_singleton.2 he

theorem outcome_error {x : Unsupported} (he : Obstacle e x) :
    Outcome [e] (.error x : Except Unsupported α) :=
  ⟨[], e, [], rfl, fun _ h => (by cases h), he⟩

end

theorem outcome_ofByteClass (ranges : List (UInt8 × UInt8)) :
    Outcome [byteClass ranges] (ofByteClass ranges) := by
  rw [ofByteClass]
  split
  case isTrue h =>
    obtain ⟨r, hr, hend⟩ := List.any_eq_true.1 h
    rw [Bool.or_eq_true, decide_eq_true_eq, decide_eq_true_eq] at hend
    rcases hend with hend | hend
    · exact outcome_error (.byteClass hr (min_le_left _ _) (le_max_left _ _) hend)
    · exact outcome_error (.byteClass hr (min_le_right _ _) (le_max_right _ _) hend)
  case isFalse h =>
    refine outcome_ok fun x hx => h ?_
    cases hx with | byteClass hr hlow hhigh hb =>
    refine List.any_eq_true.2 ⟨_, hr, ?_⟩
    rw [Bool.or_eq_true, decide_eq_true_eq, decide_eq_true_eq]
    rw [UInt8.lt_iff_toNat_lt] at hb ⊢
    rw [UInt8.lt_iff_toNat_lt]
    exact (le_max_iff.1 hhigh).imp hb.trans_le hb.trans_le

mutual

theorem outcome_toNode : (e : Regex) → Outcome e.preorder e.toNode
  | empty => outcome_ok nofun
  | char c => outcome_ok nofun
  | byte b => by
    rw [toNode]
    change Outcome [byte b] _
    split
    case isTrue h => exact outcome_error (.byte h)
    case isFalse h =>
      refine outcome_ok ?_
      rintro x ⟨hb⟩
      exact h hb
  | charClass ranges => outcome_ok nofun
  | byteClass ranges => outcome_ofByteClass ranges
  | startText => outcome_ok nofun
  | endText => outcome_ok nofun
  | startLine => outcome_error .startLine
  | endLine => outcome_error .endLine
  | wordBoundary kind => outcome_error (.wordBoundary kind)
  | repeated quantifier greedy body => by
    rw [toNode, preorder]
    exact ((outcome_toNode body).map _).cons nofun
  | group none body => by
    rw [toNode, preorder]
    exact (outcome_toNode body).cons nofun
  | group (some id) body => by
    rw [toNode, preorder]
    exact ((outcome_toNode body).map _).cons nofun
  | concat parts => by
    rw [toNode, preorder]
    exact ((outcome_toNodes parts).map _).cons nofun
  | alternation parts => by
    rw [toNode, preorder]
    exact ((outcome_toNodes parts).map _).cons nofun

theorem outcome_toNodes : (es : List Regex) → Outcome (preorderAll es) (toNodes es)
  | [] => fun _ h => by cases h
  | e :: es => by
    rw [toNodes, preorderAll]
    exact (outcome_toNode e).append (outcome_toNodes es) List.cons

end

theorem toNode_eq_error_iff {e : Regex} {x : Unsupported} :
    e.toNode = .error x ↔ Blocked e.preorder x := by
  have houtcome := outcome_toNode e
  constructor
  · intro h
    rwa [h] at houtcome
  · intro h
    cases hr : e.toNode with
    | ok n =>
      rw [hr] at houtcome
      exact absurd houtcome h.not_free
    | error y =>
      rw [hr] at houtcome
      rw [h.unique houtcome]

/-! ### The same words -/

theorem Quantifier.allows_iff {quantifier : Quantifier} {k : ℕ} : quantifier.Allows k ↔
    quantifier.bounds.1 ≤ k ∧ ∀ m, quantifier.bounds.2 = some m → k ≤ m := by
  cases quantifier <;> simp [Allows, bounds]
  omega

theorem words_repeated (quantifier : Quantifier) (greedy : Bool) (body : Regex) :
    (repeated quantifier greedy body).words =
      Node.counted body.words quantifier.bounds.1 quantifier.bounds.2 := by
  rw [words]
  apply Language.ext
  intro w
  simp only [Node.counted, Quantifier.allows_iff, and_assoc]

theorem toNat_charOfByte (b : UInt8) : (charOfByte b).toNat = b.toNat :=
  Point.toNat_ofNat (.inl (b.toNat_lt.trans (by decide)))

theorem contains_ofChars {a b c : Char} : (Span.ofChars a b).contains (Point.ofChar c) = true ↔
    min a.toNat b.toNat ≤ c.toNat ∧ c.toNat ≤ max a.toNat b.toNat := by
  rw [Span.contains_iff, Span.ofChars]
  split
  case isTrue h =>
    have hle : a.toNat ≤ b.toNat := h
    simp only [Point.ofChar]
    omega
  case isFalse h =>
    have hlt : ¬ a.toNat ≤ b.toNat := h
    simp only [Point.ofChar]
    omega

theorem not_contains_ofChars (a b : Char) :
    ¬ (Span.ofChars a b).contains Point.endOfInput = true := by
  rw [Span.contains_iff, Span.ofChars]
  split <;> simp only [Point.ofChar, Point.endOfInput] <;> omega

/-- Of the points between two characters, a matcher can be given the characters. -/
theorem feedable_ofSpans (ranges : List (Char × Char)) :
    Node.feedable (Node.set (.ofSpans (ranges.map fun r => .ofChars r.1 r.2))).words =
      Node.feedable {w | ∃ r ∈ ranges, w ∈ between r.1.toNat r.2.toNat} := by
  apply Language.ext
  intro w
  rw [Node.words]
  constructor
  · rintro ⟨_, ⟨p, hp, rfl⟩, rfl, hfeedable⟩
    rw [PointSet.contains_ofSpans, List.any_map, Bool.and_eq_true, List.any_eq_true] at hp
    obtain ⟨⟨r, hr, hp⟩, -⟩ := hp
    rcases hfeedable p List.mem_cons_self with rfl | hchar
    · exact absurd hp (not_contains_ofChars _ _)
    · obtain ⟨c, hc⟩ := Option.isSome_iff_exists.1 hchar
      obtain rfl := Point.ofChar_of_char? hc
      obtain ⟨hlow, hhigh⟩ := contains_ofChars.1 hp
      exact ⟨_, ⟨r, hr, c, hlow, hhigh, rfl⟩, rfl, hfeedable⟩
  · rintro ⟨_, ⟨r, hr, c, hlow, hhigh, rfl⟩, rfl, hfeedable⟩
    refine ⟨_, ⟨Point.ofChar c, ?_, rfl⟩, rfl, hfeedable⟩
    rw [PointSet.contains_ofSpans, List.any_map, Bool.and_eq_true, List.any_eq_true]
    exact ⟨⟨r, hr, contains_ofChars.2 ⟨hlow, hhigh⟩⟩,
      Span.contains_iff.2 (Point.inDomain_ofChar c)⟩

/-! ### Repetitions -/

end Regex

namespace Node

mutual

def repetitions : Node → List (ℕ × Option ℕ × Bool)
  | empty => []
  | endOfInput => []
  | text _ => []
  | set _ => []
  | concat ns => repetitionsAll ns
  | oneOf a b => repetitions a ++ repetitions b
  | repeated n min max lazily => (min, max, lazily) :: repetitions n
  | group _ n => repetitions n

def repetitionsAll : List Node → List (ℕ × Option ℕ × Bool)
  | [] => []
  | n :: ns => repetitions n ++ repetitionsAll ns

end

theorem repetitions_ofParts (ns : List Node) : (ofParts ns).repetitions = repetitionsAll ns := by
  match ns with
  | [] => rw [ofParts, repetitions, repetitionsAll]
  | [n] => rw [ofParts, repetitionsAll, repetitionsAll, List.append_nil]
  | n :: m :: ns => rw [ofParts, repetitions]

theorem repetitions_ofAlternatives (ns : List Node) :
    (ofAlternatives ns).repetitions = repetitionsAll ns := by
  cases ns with
  | nil => rw [ofAlternatives, repetitions, repetitionsAll]
  | cons n ns =>
    rw [ofAlternatives, repetitionsAll]
    induction ns generalizing n with
    | nil => rw [List.foldl_nil, repetitionsAll, List.append_nil]
    | cons m ns ih =>
      rw [List.foldl_cons, ih, repetitions, repetitionsAll, List.append_assoc]

end Node

namespace Regex

mutual

def repetitions : Regex → List (Quantifier × Bool)
  | repeated quantifier greedy body => (quantifier, greedy) :: repetitions body
  | group _ body => repetitions body
  | concat parts => repetitionsAll parts
  | alternation parts => repetitionsAll parts
  | _ => []

def repetitionsAll : List Regex → List (Quantifier × Bool)
  | [] => []
  | e :: es => repetitions e ++ repetitionsAll es

end

/-- What becomes of a repetition: one with the same bounds, reluctant unless it was greedy. -/
def repetitionOf (q : Quantifier × Bool) : ℕ × Option ℕ × Bool := (q.1.bounds.1, q.1.bounds.2, !q.2)

structure MeansSame (e : Regex) (n : Node) : Prop where
  words : Node.feedable n.words = Node.feedable e.words
  repetitions : n.repetitions = e.repetitions.map repetitionOf

theorem meansSame_byteClass {ranges : List (UInt8 × UInt8)} {n : Node}
    (h : ofByteClass ranges = .ok n) : MeansSame (.byteClass ranges) n := by
  rw [ofByteClass] at h
  split at h
  case isTrue => cases h
  case isFalse =>
    obtain rfl := Except.ok.inj h
    refine ⟨?_, by rw [Node.repetitions]; rfl⟩
    have hranges := feedable_ofSpans (ranges.map fun r => (charOfByte r.1, charOfByte r.2))
    rw [List.map_map] at hranges
    refine hranges.trans (congrArg Node.feedable ?_)
    apply Language.ext
    intro w
    rw [words]
    constructor
    · rintro ⟨_, hmem, hw⟩
      obtain ⟨r, hr, rfl⟩ := List.mem_map.1 hmem
      rw [toNat_charOfByte, toNat_charOfByte] at hw
      exact ⟨r, hr, hw⟩
    · rintro ⟨r, hr, hw⟩
      refine ⟨(charOfByte r.1, charOfByte r.2), List.mem_map.2 ⟨r, hr, rfl⟩, ?_⟩
      rwa [toNat_charOfByte, toNat_charOfByte]

mutual

theorem meansSame_of_toNode : (e : Regex) → (n : Node) → e.toNode = .ok n → MeansSame e n
  | empty, n, h => by
    obtain rfl := Except.ok.inj h
    exact ⟨by rw [Node.words, words], rfl⟩
  | char c, n, h => by
    obtain rfl := Except.ok.inj h
    exact ⟨by rw [Node.words, words]; rfl, rfl⟩
  | byte b, n, h => by
    rw [toNode] at h
    split at h
    case isTrue => cases h
    case isFalse =>
      obtain rfl := Except.ok.inj h
      refine ⟨?_, rfl⟩
      rw [Node.words, words, List.map_singleton, Point.ofChar, toNat_charOfByte]
  | charClass ranges, n, h => by
    obtain rfl := Except.ok.inj h
    exact ⟨by rw [words]; exact feedable_ofSpans ranges, rfl⟩
  | byteClass ranges, n, h => meansSame_byteClass h
  | startText, n, h => by
    obtain rfl := Except.ok.inj h
    exact ⟨by rw [Node.words, words], rfl⟩
  | endText, n, h => by
    obtain rfl := Except.ok.inj h
    exact ⟨by rw [Node.words, words], rfl⟩
  | startLine, _, h => nomatch h
  | endLine, _, h => nomatch h
  | wordBoundary _, _, h => nomatch h
  | repeated quantifier greedy body, n, h => by
    rw [toNode] at h
    obtain ⟨m, hm, rfl⟩ := ok_of_map h
    have ih := meansSame_of_toNode body m hm
    refine ⟨?_, ?_⟩
    · rw [Node.words, words_repeated, Node.feedable_counted, Node.feedable_counted, ih.words]
    · rw [Node.repetitions, repetitions, List.map_cons, ih.repetitions]
      rfl
  | group none body, n, h => by
    rw [toNode] at h
    have ih := meansSame_of_toNode body n h
    exact ⟨by rw [words, ih.words], by rw [repetitions, ih.repetitions]⟩
  | group (some id) body, n, h => by
    rw [toNode] at h
    obtain ⟨m, hm, rfl⟩ := ok_of_map h
    have ih := meansSame_of_toNode body m hm
    exact ⟨by rw [Node.words, words, ih.words],
      by rw [Node.repetitions, repetitions, ih.repetitions]⟩
  | concat parts, n, h => by
    rw [toNode] at h
    obtain ⟨ns, hns, rfl⟩ := ok_of_map h
    obtain ⟨hwords, -, hrepetitions⟩ := meansSame_of_toNodes parts ns hns
    refine ⟨by rw [Node.words_ofParts, words, hwords], ?_⟩
    rw [Node.repetitions_ofParts, repetitions, hrepetitions]
  | alternation parts, n, h => by
    rw [toNode] at h
    obtain ⟨ns, hns, rfl⟩ := ok_of_map h
    obtain ⟨-, hwords, hrepetitions⟩ := meansSame_of_toNodes parts ns hns
    refine ⟨by rw [Node.words_ofAlternatives, words, hwords], ?_⟩
    rw [Node.repetitions_ofAlternatives, repetitions, hrepetitions]

theorem meansSame_of_toNodes : (es : List Regex) → (ns : List Node) → toNodes es = .ok ns →
    Node.feedable (Node.wordsAll ns) = Node.feedable (wordsOfAll es) ∧
      Node.feedable (ns.map Node.words).sum = Node.feedable (wordsOfAny es) ∧
      Node.repetitionsAll ns = (repetitionsAll es).map repetitionOf
  | [], ns, h => by
    obtain rfl := Except.ok.inj h
    exact ⟨rfl, rfl, rfl⟩
  | e :: es, ns, h => by
    rw [toNodes] at h
    obtain ⟨m, hm, h⟩ := ok_of_bind h
    obtain ⟨ms, hms, h⟩ := ok_of_bind h
    obtain rfl := Except.ok.inj h
    have hhead := meansSame_of_toNode e m hm
    obtain ⟨hall, hany, hrepetitions⟩ := meansSame_of_toNodes es ms hms
    refine ⟨?_, ?_, ?_⟩
    · rw [Node.wordsAll, wordsOfAll, Node.feedable_mul, Node.feedable_mul, hhead.words, hall]
    · rw [List.map_cons, List.sum_cons, wordsOfAny, Node.feedable_add, Node.feedable_add,
        hhead.words, hany]
    · rw [Node.repetitionsAll, repetitionsAll, List.map_append, hhead.repetitions, hrepetitions]

end

/-- Translation fails exactly if some part of an expression has no counterpart, and then for the
first such part in the order from the left. Otherwise the pattern has the words of the expression
among those that a matcher can be given; and its repetitions are those of the expression, one by
one, reluctant exactly if they are not greedy. -/
theorem toNode_exact (e : Regex) :
    ((∃ x, e.toNode = .error x) ↔ ∃ part ∈ e.preorder, ∃ x, Obstacle part x) ∧
    (∀ x, e.toNode = .error x ↔ ∃ before part after, e.preorder = before ++ part :: after ∧
      (∀ f ∈ before, ∀ y, ¬ Obstacle f y) ∧ Obstacle part x) ∧
    ∀ n, e.toNode = .ok n →
      (∀ w, (∀ p ∈ w, Node.Feedable p) → (w ∈ n.words ↔ w ∈ e.words)) ∧
      n.repetitions = e.repetitions.map fun (quantifier, greedy) =>
        (quantifier.bounds.1, quantifier.bounds.2, !greedy) := by
  refine ⟨⟨fun ⟨x, hx⟩ => ?_, fun ⟨part, hpart, x, hx⟩ => ?_⟩, fun x => toNode_eq_error_iff,
    fun n h => ?_⟩
  · obtain ⟨before, part, after, hsplit, -, hpart⟩ := toNode_eq_error_iff.1 hx
    exact ⟨part, hsplit ▸ List.mem_append_right _ List.mem_cons_self, x, hpart⟩
  · cases hr : e.toNode with
    | error y => exact ⟨y, rfl⟩
    | ok n =>
      have hfree := outcome_toNode e
      rw [hr] at hfree
      exact absurd hx (hfree part hpart x)
  · have hsame := meansSame_of_toNode e n h
    refine ⟨fun w hw => ?_, hsame.repetitions⟩
    have hwords := hsame.words
    rw [Node.feedable, Node.feedable] at hwords
    rw [← Node.mem_related_keeps hw, hwords, Node.mem_related_keeps hw]

/-- The line anchor in the first alternative is reported, and not the word boundary after it. -/
example : toNode (.alternation [.concat [.char 'a', .endLine], .wordBoundary .unicode]) =
    .error .lineAnchor := rfl

end Regex

end PatternAutomata
