import PatternAutomata.Nfa

/-!
Fragments: the states that stand for one pattern. A fragment takes consecutive identifiers; it is
entered at the first, and left at `base + exitOffset`, whose transitions out of the fragment are
given by the caller and come after its own. Repetitions are unrolled. `length_fragment` says that a
fragment has as many states as `stateCount` foretells.
-/

set_option autoImplicit false

namespace PatternAutomata.Nfa

/-- `count` copies of something of `size` states, or one state if there are none. -/
def copiesCount (size count : Nat) : Nat := if count = 0 then 1 else count * size

/-- The copies of a repetition that may be left out; a loop needs one. -/
def optionalCopies (min : Nat) : (max : Option Nat) → Nat
  | none => 1
  | some max => max - min

mutual

def stateCount : Node → Nat
  | .empty => 1
  | .endOfInput => 2
  | .text cs => cs.length + 1
  | .set _ => 2
  | .concat [] => 1
  | .concat (n :: ns) => stateCountAll (n :: ns)
  | .oneOf a b => stateCount a + stateCount b + 2
  | .repeated n min max _ =>
    copiesCount (stateCount n) min + 1 + optionalCopies min max * stateCount n
  | .group _ n => stateCount n + 2

def stateCountAll : List Node → Nat
  | [] => 0
  | n :: ns => stateCount n + stateCountAll ns

end

/-- One copy after another: the exit of each leads to the next as `link` says, and the exit of the
last one as `out` says. -/
def chain (copy : (base : Nat) → (out : List Transition) → List State) (size base count : Nat)
    (link : (next : Nat) → List Transition) (out : List Transition) : List State :=
  (List.range count).flatMap fun i =>
    copy (base + i * size) (if i + 1 < count then link (base + (i + 1) * size) else out)

def consume (points : PointSet) (reluctant : Bool) (base : Nat) (out : List Transition) :
    List State :=
  [⟨none, [.consuming points reluctant (base + 1)]⟩, ⟨none, out⟩]

def literal (cs : List Char) (reluctant : Bool) (base : Nat) (out : List Transition) :
    List State :=
  (cs.zipIdx base).map (fun (c, id) => ⟨none, [.consuming (.single c) reluctant (id + 1)]⟩) ++
    [⟨none, out⟩]

/-- The mandatory copies of a repetition, or a single state without any. -/
def mandatory (copy : (base : Nat) → (out : List Transition) → List State) (size base count : Nat)
    (out : List Transition) : List State :=
  if count = 0 then [⟨none, out⟩]
  else chain copy size base count (fun next => [.silent next]) out

mutual

/-- The fragment of a pattern from the identifier `base` on. All that it consumes is reluctant if
the flag is set, and the optional copies of a reluctant repetition are in any case. -/
def fragment : (n : Node) → (reluctant : Bool) → (base : Nat) → (out : List Transition) → List State
  | .empty, _, _, out => [⟨none, out⟩]
  | .endOfInput, reluctant, base, out => consume .endOfInput reluctant base out
  | .text cs, reluctant, base, out => literal cs reluctant base out
  | .set points, reluctant, base, out => consume points reluctant base out
  | .concat [], _, _, out => [⟨none, out⟩]
  | .concat (n :: ns), reluctant, base, out => fragmentAll (n :: ns) reluctant base out
  | .oneOf a b, reluctant, base, out =>
    let second := base + 1 + stateCount a
    let exit := second + stateCount b
    ⟨none, [.silent (base + 1), .silent second]⟩ ::
      fragment a reluctant (base + 1) [.silent exit] ++
      fragment b reluctant second [.silent exit] ++ [⟨none, out⟩]
  | .repeated n min none lazily, reluctant, base, out =>
    let loop := base + copiesCount (stateCount n) min
    mandatory (fragment n reluctant) (stateCount n) base min [.silent loop] ++
      ⟨none, .silent (loop + 1) :: out⟩ ::
      fragment n (reluctant || lazily) (loop + 1) [.silent loop]
  | .repeated n min (some max) lazily, reluctant, base, out =>
    let exit := base + copiesCount (stateCount n) min
    let extra := max - min
    let skip := fun next => [Transition.silent next, Transition.silent exit]
    mandatory (fragment n reluctant) (stateCount n) base min
        (if extra = 0 then [.silent exit] else skip (exit + 1)) ++
      ⟨none, out⟩ ::
      chain (fragment n (reluctant || lazily)) (stateCount n) (exit + 1) extra skip [.silent exit]
  | .group id n, reluctant, base, out =>
    let exit := base + 1 + stateCount n
    ⟨none, [.marking (.start id) (base + 1)]⟩ ::
      fragment n reluctant (base + 1) [.marking (.stop id) exit] ++ [⟨none, out⟩]

def fragmentAll : (ns : List Node) → (reluctant : Bool) → (base : Nat) →
    (out : List Transition) → List State
  | [], _, _, _ => []
  | [n], reluctant, base, out => fragment n reluctant base out
  | n :: m :: ns, reluctant, base, out =>
    fragment n reluctant base [.silent (base + stateCount n)] ++
      fragmentAll (m :: ns) reluctant (base + stateCount n) out

end

theorem length_chain (copy : Nat → List Transition → List State) (size : Nat)
    (h : ∀ base out, (copy base out).length = size) (base count : Nat)
    (link : Nat → List Transition) (out : List Transition) :
    (chain copy size base count link out).length = count * size := by
  simp only [chain, List.length_flatMap, h, List.map_const', List.length_range,
    List.sum_replicate_nat]

theorem length_mandatory (copy : Nat → List Transition → List State) (size : Nat)
    (h : ∀ base out, (copy base out).length = size) (base count : Nat) (out : List Transition) :
    (mandatory copy size base count out).length = copiesCount size count := by
  unfold mandatory copiesCount
  split
  · rfl
  · exact length_chain copy size h base count _ out

mutual

theorem length_fragment : (n : Node) → (reluctant : Bool) → (base : Nat) →
    (out : List Transition) → (fragment n reluctant base out).length = stateCount n
  | .empty, _, _, _ => by simp [fragment, stateCount]
  | .endOfInput, _, _, _ => by simp [fragment, stateCount, consume]
  | .text _, _, _, _ => by simp [fragment, stateCount, literal]
  | .set _, _, _, _ => by simp [fragment, stateCount, consume]
  | .concat [], _, _, _ => by simp [fragment, stateCount]
  | .concat (n :: ns), reluctant, base, out => by
    simpa [fragment, stateCount] using length_fragmentAll (n :: ns) reluctant base out
  | .oneOf a b, reluctant, base, out => by
    simp only [fragment, stateCount, List.length_append, List.length_cons, List.length_nil,
      length_fragment a, length_fragment b]
    omega
  | .repeated n min none lazily, reluctant, base, out => by
    simp only [fragment, stateCount, List.length_append, List.length_cons, optionalCopies,
      length_mandatory _ _ (length_fragment n reluctant), length_fragment n]
    omega
  | .repeated n min (some max) lazily, reluctant, base, out => by
    simp only [fragment, stateCount, List.length_append, List.length_cons, optionalCopies,
      length_mandatory _ _ (length_fragment n reluctant),
      length_chain _ _ (length_fragment n (reluctant || lazily))]
    omega
  | .group _ n, reluctant, base, out => by
    simp only [fragment, stateCount, List.length_append, List.length_cons, List.length_nil,
      length_fragment n]

theorem length_fragmentAll : (ns : List Node) → (reluctant : Bool) → (base : Nat) →
    (out : List Transition) → (fragmentAll ns reluctant base out).length = stateCountAll ns
  | [], _, _, _ => by simp [fragmentAll, stateCountAll]
  | [n], reluctant, base, out => by
    simp [fragmentAll, stateCountAll, length_fragment n]
  | n :: m :: ns, reluctant, base, out => by
    rw [fragmentAll, stateCountAll, List.length_append, length_fragment n,
      length_fragmentAll (m :: ns)]

end

end PatternAutomata.Nfa
