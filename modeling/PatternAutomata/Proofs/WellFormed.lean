import PatternAutomata.Proofs.Derivation
import PatternAutomata.Proofs.Printing
import PatternAutomata.Proofs.StateCount
import PatternAutomata.Proofs.Tidy

/-!
Every tree that was read is well formed. That it is tidy is known from the grammar; here this is
said of its places one by one, and of its groups by their numbers. So what was read can always be
built, but for the limits.
-/

set_option autoImplicit false

namespace PatternAutomata

namespace Node

variable {n m : Node}

theorem tidy_of_occursIn (h : m.OccursIn n) (hn : n.Tidy) : m.Tidy := by
  induction h with
  | here => exact hn
  | part hm _ ih => exact ih (tidyAll_iff.1 hn.2.2 _ hm).2
  | first _ ih => exact ih hn.1
  | second _ ih => exact ih hn.2
  | operand _ ih => exact ih hn.2.2
  | inside _ ih => exact ih hn.2

theorem soundHere_of_tidy (h : n.Tidy) : n.SoundHere := by
  cases n with
  | text cs => exact h
  | set s =>
    obtain ⟨hend, hsettled⟩ := h
    refine ⟨hend, fun r hr => ?_⟩
    rw [← hsettled] at hr
    exact (Grammar.writable_settled hend hr).2
  | concat ns =>
    obtain ⟨hlength, hapart, hparts⟩ := h
    exact ⟨hlength, fun hempty => (tidyAll_iff.1 hparts _ hempty).1 rfl, hapart⟩
  | repeated n min max lazily => exact fun m hm => (h.2.1 m hm).1
  | _ => trivial

theorem inOrder_of_tidy (h : n.Tidy) : n.InOrder := fun _ _ max _ hm =>
  soundHere_of_tidy (tidy_of_occursIn hm h) max rfl

mutual

theorem exists_occursIn_of_mem_groups {id : GroupId} : (n : Node) → id ∈ n.groups →
    ∃ m, (group id m).OccursIn n
  | empty, h => absurd h List.not_mem_nil
  | endOfInput, h => absurd h List.not_mem_nil
  | text _, h => absurd h List.not_mem_nil
  | set _, h => absurd h List.not_mem_nil
  | concat ns, h => by
    obtain ⟨n, hn, m, hm⟩ := exists_occursIn_of_mem_groupsAll ns h
    exact ⟨m, .part hn hm⟩
  | oneOf a b, h => by
    rcases List.mem_append.1 h with h | h
    · obtain ⟨m, hm⟩ := exists_occursIn_of_mem_groups a h
      exact ⟨m, .first hm⟩
    · obtain ⟨m, hm⟩ := exists_occursIn_of_mem_groups b h
      exact ⟨m, .second hm⟩
  | repeated n _ _ _, h => by
    obtain ⟨m, hm⟩ := exists_occursIn_of_mem_groups n h
    exact ⟨m, .operand hm⟩
  | group _ n, h => by
    rcases List.mem_cons.1 h with rfl | h
    · exact ⟨n, .here⟩
    · obtain ⟨m, hm⟩ := exists_occursIn_of_mem_groups n h
      exact ⟨m, .inside hm⟩

theorem exists_occursIn_of_mem_groupsAll {id : GroupId} : (ns : List Node) → id ∈ groupsAll ns →
    ∃ n ∈ ns, ∃ m, (group id m).OccursIn n
  | [], h => absurd h List.not_mem_nil
  | n :: ns, h => by
    rcases List.mem_append.1 h with h | h
    · exact ⟨n, List.mem_cons_self, exists_occursIn_of_mem_groups n h⟩
    · obtain ⟨k, hk, hm⟩ := exists_occursIn_of_mem_groupsAll ns h
      exact ⟨k, List.mem_cons_of_mem n hk, hm⟩

end

theorem isName_of_tidy (h : n.Tidy) : ∀ s ∈ n.groupNames, Grammar.IsName s := by
  intro s hs
  obtain ⟨id, hid, hname⟩ := List.mem_filterMap.1 hs
  obtain ⟨m, hm⟩ := exists_occursIn_of_mem_groups n hid
  exact (tidy_of_occursIn hm h).1 s hname

/-- The place of a group among all of them is its number, unless it has a name. -/
theorem Numbered.getElem? {ids : List GroupId} {next k : ℕ} {id : GroupId}
    (h : Numbered next ids) (hk : ids[k]? = some id) :
    id = .index (next + k) ∨ ∃ s, id = .name s := by
  induction ids generalizing next k with
  | nil => cases hk
  | cons first ids ih =>
    obtain ⟨hfirst, hrest⟩ := h
    cases k with
    | zero =>
      cases hk
      cases id with
      | index i => exact .inl (congrArg GroupId.index (hfirst i rfl))
      | name s => exact .inr ⟨s, rfl⟩
    | succ k =>
      rw [Nat.add_comm k, ← Nat.add_assoc]
      exact ih hrest hk

end Node

theorem Nfa.build_ne_invalidRepetition {nodes : List Node} (h : ∀ n ∈ nodes, n.Tidy)
    (limits : Limits) (min max : ℕ) : build limits nodes ≠ .error (.invalidRepetition min max) := by
  intro hb
  by_cases hne : nodes = []
  · subst hne
    cases hb
  by_cases hp : nodes.length ≤ limits.patternLimit
  · have hcounted := fun n hn => counted_of_inOrder n (Node.inOrder_of_tidy (h n hn))
    rw [build_of_counted hne hp hcounted, take] at hb
    split at hb <;> cases hb
  · rw [build, if_neg (mt List.isEmpty_iff.1 hne), if_pos (Nat.not_le.1 hp)] at hb
    cases hb

namespace Parser

variable {limit : ℕ} {pattern : String} {n : Node}

theorem tidy_of_parse (h : parse limit pattern = .ok n) : n.Tidy := by
  obtain ⟨_, ht, -⟩ := exists_isTree_of_parseChars h
  exact (Grammar.tidy_union ht).1

theorem wellFormed_of_parse (h : parse limit pattern = .ok n) : n.WellFormed := by
  obtain ⟨_, ht, hdistinct⟩ := exists_isTree_of_parseChars h
  obtain ⟨htidy, hnumbered⟩ := Grammar.tidy_union ht
  constructor
  case places => exact fun m hm => Node.soundHere_of_tidy (Node.tidy_of_occursIn hm htidy)
  case numbered =>
    intro k id hk
    rw [Nat.add_comm]
    exact hnumbered.getElem? hk
  case names => exact Node.isName_of_tidy htidy
  case distinct => exact hdistinct

/-- Every tree that was read is well formed, and building an automaton of such trees finds no
repetition that ends before it begins. -/
theorem parse_wellFormed {nodes : List Node}
    (h : ∀ n ∈ nodes, ∃ limit pattern, parse limit pattern = .ok n) :
    (∀ n ∈ nodes, n.WellFormed) ∧
      ∀ limits min max, Nfa.build limits nodes ≠ .error (.invalidRepetition min max) := by
  refine ⟨fun n hn => ?_, Nfa.build_ne_invalidRepetition fun n hn => ?_⟩
  all_goals obtain ⟨limit, pattern, hparse⟩ := h n hn
  · exact wellFormed_of_parse hparse
  · exact tidy_of_parse hparse

def numberedAndNamed : Node :=
  .concat [.group (.index 1) (.text ['a', 'b']),
    .group (.name "x") (.repeated (.set (.ofSpan (.ofChars 'c' 'e'))) 2 (some 3) true)]

theorem parse_wellFormed_groups :
    (∀ n ∈ [numberedAndNamed], ∃ limit pattern, parse limit pattern = .ok n) ∧
      numberedAndNamed.WellFormed := by
  have hparse : parse 2 "(ab)(?<x>[c-e]{2,3}?)" = .ok numberedAndNamed := by decide +kernel
  have h : ∀ n ∈ [numberedAndNamed], ∃ limit pattern, parse limit pattern = .ok n := by
    intro n hn
    obtain rfl := List.mem_singleton.1 hn
    exact ⟨2, _, hparse⟩
  exact ⟨h, (parse_wellFormed h).1 _ List.mem_cons_self⟩

end Parser

end PatternAutomata
