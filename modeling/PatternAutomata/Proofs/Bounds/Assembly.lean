import PatternAutomata.Proofs.Bounds.Assembler

/-!
Building an automaton state by state. The states of a pattern are made one at a time, and the exit
of each part is linked to what comes next once that is there. This takes up the states that are
reserved, fails where `reserve` does, links nothing but states that are there, and ends in the
fragment of the pattern.
-/

set_option autoImplicit false

namespace PatternAutomata.Nfa

open Assembler

section

variable {m : Type → Type} [Monad m] [MonadLiftT Assembler m]

mutual

/-- Makes the states of a pattern, in any monad in which that can be done. -/
def assemble (limit : ℕ) : Node → (reluctant : Bool) → m Ports
  | .empty, _ => single limit
  | .endOfInput, reluctant => consuming limit .endOfInput reluctant
  | .text cs, reluctant => do
    let entry ← add limit none
    let exit ← spell limit reluctant entry cs
    return ⟨entry, exit⟩
  | .set points, reluctant => consuming limit points reluctant
  | .concat ns, reluctant => inOrder limit (assembleEach limit ns reluctant)
  | .oneOf a b, reluctant => do
    let entry ← add limit none
    let first ← assemble limit a reluctant
    let second ← assemble limit b reluctant
    let exit ← add limit none
    wire [(entry, .silent first.entry), (entry, .silent second.entry),
      (first.exit, .silent exit), (second.exit, .silent exit)]
    return ⟨entry, exit⟩
  | .repeated n min none lazily, reluctant => do
    demand (BuildError.ofCounts min none)
    let first ← inOrder limit (List.replicate min (assemble limit n reluctant))
    let loop ← add limit none
    let body ← assemble limit n (reluctant || lazily)
    wire [(first.exit, .silent loop), (loop, .silent body.entry), (body.exit, .silent loop)]
    return ⟨first.entry, loop⟩
  | .repeated n min (some max) lazily, reluctant => do
    demand (BuildError.ofCounts min (some max))
    let first ← inOrder limit (List.replicate min (assemble limit n reluctant))
    let exit ← add limit none
    let last ← attach (fun next => [.silent next, .silent exit]) first.exit
      (List.replicate (max - min) (assemble limit n (reluctant || lazily)))
    link last (.silent exit)
    return ⟨first.entry, exit⟩
  | .group id n, reluctant => do
    let entry ← add limit none
    let body ← assemble limit n reluctant
    let exit ← add limit none
    wire [(entry, .marking (.start id) body.entry), (body.exit, .marking (.stop id) exit)]
    return ⟨entry, exit⟩

def assembleEach (limit : ℕ) : List Node → (reluctant : Bool) → List (m Ports)
  | [], _ => []
  | n :: ns, reluctant => assemble limit n reluctant :: assembleEach limit ns reluctant

end

def assemblePatterns (limit : ℕ) : (pattern : ℕ) → List Node → m Unit
  | _, [] => return ()
  | pattern, n :: ns => do
    index pattern
    let ports ← assemble limit n false
    let accept ← add limit (some pattern)
    wire [(accept, .consuming .endOfInput false accept), (start, .silent ports.entry),
      (ports.exit, .silent accept)]
    assemblePatterns limit (pattern + 1) ns

def assembleNodes (limit : ℕ) (nodes : List Node) : m Unit := do
  let _ ← add limit none
  assemblePatterns limit 0 nodes

end

def checkedBuild (limits : Limits) (nodes : List Node) : Except (Failure BuildError) Nfa :=
  if nodes.isEmpty then .error (.refused .noPatterns)
  else if limits.patternLimit < nodes.length then
    .error (.refused (.tooManyPatterns nodes.length limits.patternLimit))
  else do
    let made ← (assembleNodes limits.stateLimit nodes : Assembler Unit) #[]
    return ⟨made.2, nodes.length⟩

/-! ### Parts one after another -/

section

variable (links : (next : ℕ) → List Transition) (reluctant : Bool) (base : ℕ)

/-- The states `f`, from the number `base` on, and the fragments of some patterns behind them, with
`links` from each to the next. -/
def strung : (ns : List Node) → (f : (out : List Transition) → List State) →
    (out : List Transition) → List State
  | [], f, out => f out
  | n :: ns, f, out =>
    let next := base + (f []).length
    strung ns (fun out => f (links next) ++ fragment n reluctant next out) out

variable {f : List Transition → List State} (hf : ∀ out, (f out).length = (f []).length)

include hf

theorem length_strung_step (n : Node) (out : List Transition) :
    (f (links (base + (f []).length)) ++ fragment n reluctant (base + (f []).length) out).length =
      (f []).length + stateCount n := by
  rw [List.length_append, hf, length_fragment]

theorem strung_silent (ns : List Node) (out : List Transition) :
    strung (fun next => [.silent next]) reluctant base ns f out =
      f (if ns = [] then out else [.silent (base + (f []).length)]) ++
        fragmentAll ns reluctant (base + (f []).length) out := by
  induction ns generalizing f with
  | nil => rw [strung, if_pos rfl, fragmentAll, List.append_nil]
  | cons n ns ih =>
    have hlength := length_strung_step (fun next => [.silent next]) reluctant base hf n
    rw [strung, if_neg (List.cons_ne_nil n ns), ih fun out => (hlength out).trans (hlength []).symm,
      hlength, List.append_assoc, ← Nat.add_assoc]
    cases ns with
    | nil => rw [if_pos rfl, fragmentAll, fragmentAll, List.append_nil]
    | cons m ns => rw [if_neg (List.cons_ne_nil m ns), fragmentAll]

theorem strung_replicate (n : Node) (count : ℕ) (out : List Transition) :
    strung links reluctant base (List.replicate count n) f out =
      f (if count = 0 then out else links (base + (f []).length)) ++
        chain (fragment n reluctant) (stateCount n) (base + (f []).length) count links out := by
  induction count generalizing f with
  | zero => rw [List.replicate_zero, strung, if_pos rfl, chain_zero, List.append_nil]
  | succ count ih =>
    have hlength := length_strung_step links reluctant base hf n
    rw [List.replicate_succ, strung, if_neg (Nat.succ_ne_zero count),
      ih fun out => (hlength out).trans (hlength []).symm, hlength, List.append_assoc,
      ← Nat.add_assoc, chain_succ]

end

section

variable {limit : ℕ} {reluctant : Bool} {ns : List Node}
  (hmakes : ∀ n ∈ ns, Makes limit (assemble limit n reluctant) (reserve limit n)
    (fragment n reluctant))

include hmakes

theorem runs_attach (links : (next : ℕ) → List Transition) {before : List State}
    {f : List Transition → List State} {i : ℕ} (hf : OpenAt f i)
    (hle : (before ++ f []).length ≤ limit) :
    Runs limit
      (fun exit => Part before (strung links reluctant before.length ns f) ⟨before.length, exit⟩)
      (reserveAll limit ns (before ++ f []).length)
      ((attach links (before.length + i) (assembleEach limit ns reluctant) : Assembler ℕ)
        (before ++ f []).toArray) := by
  induction ns generalizing f i with
  | nil =>
    rw [reserveAll, assembleEach, attach]
    exact .done rfl hle ⟨rfl, rfl, i, rfl, hf⟩
  | cons n ns ih =>
    rw [reserveAll, assembleEach, attach]
    have hbase : (before ++ f []).length = before.length + (f []).length := List.length_append
    refine (hmakes n List.mem_cons_self _ hle).bind ?_
    rintro ⟨entry, exit⟩ made hmade ⟨rfl, rfl, j, rfl, hj⟩
    simp only [hbase] at hj hmade ⊢
    have hlinks := ((hf.append_right (fragment n reluctant (before.length + (f []).length) [])
      ).append_left before).run_links [] (links (before.length + (f []).length))
    have hnext := ih (fun m hm => hmakes m (List.mem_cons_of_mem _ hm))
      (hj.append_left (f (links (before.length + (f []).length))))
    simp only [List.length_append, hf.length (links _), ← Nat.add_assoc] at hnext hmade
    rw [← List.append_assoc] at hlinks
    rw [liftM_self, run_of_ok hlinks]
    simp only [List.length_append]
    exact hnext hmade

theorem makes_inOrder (hlimit : limit ≤ Ident.capacity) :
    Makes limit (inOrder limit (assembleEach limit ns reluctant))
    (reserve limit (.concat ns)) (fragment (.concat ns) reluctant) := by
  intro before hbefore
  cases ns with
  | nil =>
    have hfragment : fragment (.concat []) reluctant = fun _ out => [⟨none, out⟩] := by
      funext base out
      rw [fragment]
    rw [reserve, assembleEach, inOrder, hfragment]
    exact makes_single hlimit before hbefore
  | cons n ns =>
    rw [reserve, reserveAll, assembleEach, inOrder]
    refine (hmakes n List.mem_cons_self _ hbefore).bind ?_
    rintro ⟨entry, exit⟩ made hmade ⟨rfl, rfl, i, rfl, hi⟩
    refine (runs_attach (fun m hm => hmakes m (List.mem_cons_of_mem _ hm)) _ hi hmade).ending ?_
    rintro exit made ⟨-, rfl, j, rfl, hj⟩
    have hstrung : strung (fun next => [.silent next]) reluctant before.length ns
        (fragment n reluctant before.length) =
        fragment (.concat (n :: ns)) reluctant before.length := by
      funext out
      have hlength : ∀ out, (fragment n reluctant before.length out).length = stateCount n :=
        length_fragment n reluctant before.length
      rw [strung_silent _ _ fun out => (hlength out).trans (hlength []).symm, hlength, fragment]
      cases ns with
      | nil => rw [if_pos rfl, fragmentAll, fragmentAll, List.append_nil]
      | cons m ns => rw [if_neg (List.cons_ne_nil m ns), fragmentAll]
    rw [hstrung] at hj ⊢
    exact ⟨_, _, rfl, rfl, rfl, rfl, j, rfl, hj⟩

end

/-! ### Patterns -/

section

variable {limit : ℕ} (hlimit : limit ≤ Ident.capacity) {reluctant : Bool}

include hlimit

theorem makes_text (cs : List Char) : Makes limit (assemble limit (.text cs) reluctant)
    (reserve limit (.text cs)) (fragment (.text cs) reluctant) := by
  intro before hbefore
  have hfragment : fragment (.text cs) reluctant before.length =
      literal cs reluctant before.length := by
    funext out
    rw [fragment]
  rw [assemble, reserve, Nat.add_comm, take_add, hfragment]
  refine (runs_add hlimit hbefore none).bind ?_
  rintro entry made hmade ⟨rfl, rfl⟩
  rw [List.length_append] at hmade ⊢
  refine (runs_spell hlimit reluctant before cs hmade).ending ?_
  rintro exit made ⟨rfl, rfl⟩
  exact ⟨_, _, rfl, rfl, rfl, rfl, cs.length, rfl, openAt_literal cs reluctant before.length⟩

omit hlimit in
theorem wire_oneOf (before : List State) {first second : List Transition → List State} {i j : ℕ}
    (hi : OpenAt first i) (hj : OpenAt second j) {next : ℕ}
    (hnext : before.length + 1 + (first []).length = next) (exit : ℕ) :
    wire [(before.length, .silent (before.length + 1)), (before.length, .silent next),
        (before.length + 1 + i, .silent exit), (next + j, .silent exit)]
      (before ++ State.mk none [] :: (first [] ++ (second [] ++ [.mk none []]))).toArray =
      .ok ((), (before ++ State.mk none [.silent (before.length + 1), .silent next] ::
        (first [.silent exit] ++ (second [.silent exit] ++ [.mk none []]))).toArray) := by
  have hentry := (openAt_single none []).run_link_between before
    (first [] ++ (second [] ++ [⟨none, []⟩])) []
  have hentry' := (openAt_single none []).run_link_between before
    (first [] ++ (second [] ++ [⟨none, []⟩])) [.silent (before.length + 1)]
  have hfirst := hi.run_link_between
    (before ++ [⟨none, [.silent (before.length + 1), .silent next]⟩])
    (second [] ++ [⟨none, []⟩]) [] (.silent exit)
  have hsecond := hj.run_link_between
    (before ++ State.mk none [.silent (before.length + 1), .silent next] :: first [.silent exit])
    [⟨none, []⟩] [] (.silent exit)
  simp only [List.append_assoc, List.length_append, List.length_cons, List.length_nil,
    List.cons_append, List.nil_append, Nat.add_zero, Nat.zero_add, hi.length [.silent exit],
    Nat.add_comm (first []).length 1, ← Nat.add_assoc, hnext] at hentry hentry' hfirst hsecond
  rw [wire, run_of_ok (hentry _), wire, run_of_ok (hentry' _), wire, run_of_ok hfirst, wire,
    run_of_ok hsecond]
  rfl

omit hlimit in
theorem wire_group (before : List State) {f : List Transition → List State} {i : ℕ}
    (hi : OpenAt f i) (id : GroupId) (exit : ℕ) :
    wire [(before.length, .marking (.start id) (before.length + 1)),
        (before.length + 1 + i, .marking (.stop id) exit)]
      (before ++ State.mk none [] :: (f [] ++ [.mk none []])).toArray =
      .ok ((), (before ++ State.mk none [.marking (.start id) (before.length + 1)] ::
        (f [.marking (.stop id) exit] ++ [.mk none []])).toArray) := by
  have hentry := (openAt_single none []).run_link_between before (f [] ++ [⟨none, []⟩]) []
  have hbody := hi.run_link_between
    (before ++ [⟨none, [.marking (.start id) (before.length + 1)]⟩]) [⟨none, []⟩] []
  simp only [List.append_assoc, List.length_append, List.length_cons, List.length_nil,
    List.cons_append, List.nil_append, Nat.add_zero, Nat.zero_add] at hentry hbody
  rw [wire, run_of_ok (hentry _), wire, run_of_ok (hbody _)]
  rfl

omit hlimit in
/-- The links of a loop: from what comes before it, into its body and back. -/
theorem wire_loop (before : List State) {first body : List Transition → List State} {i j : ℕ}
    (hi : OpenAt first i) (hj : OpenAt body j) {loop : ℕ}
    (hloop : before.length + (first []).length = loop) :
    wire [(before.length + i, .silent loop), (loop, .silent (loop + 1)),
        (loop + 1 + j, .silent loop)]
      (before ++ (first [] ++ State.mk none [] :: body [])).toArray =
      .ok ((), (before ++ (first [.silent loop] ++ State.mk none [.silent (loop + 1)] ::
        body [.silent loop])).toArray) := by
  have hfirst := hi.run_link_between before (⟨none, []⟩ :: body []) []
  have hhead := (openAt_single none []).run_link_between (before ++ first [.silent loop])
    (body []) []
  have hbody := hj.run_link_between
    (before ++ (first [.silent loop] ++ [⟨none, [.silent (loop + 1)]⟩])) [] []
  simp only [List.append_assoc, List.length_append, List.length_cons, List.length_nil,
    List.cons_append, List.nil_append, List.append_nil, Nat.add_zero, Nat.zero_add,
    hi.length [.silent loop], ← Nat.add_assoc, hloop] at hfirst hhead hbody
  rw [wire, run_of_ok (hfirst _), wire, run_of_ok (hhead _), wire, run_of_ok (hbody _)]
  rfl

theorem makes_oneOf {a b : Node}
    (ha : Makes limit (assemble limit a reluctant) (reserve limit a) (fragment a reluctant))
    (hb : Makes limit (assemble limit b reluctant) (reserve limit b) (fragment b reluctant)) :
    Makes limit (assemble limit (.oneOf a b) reluctant) (reserve limit (.oneOf a b))
      (fragment (.oneOf a b) reluctant) := by
  intro before hbefore
  rw [assemble, reserve]
  refine (runs_add hlimit hbefore none).bind ?_
  rintro entry made hmade ⟨rfl, rfl⟩
  refine (ha _ hmade).bind ?_
  rintro ⟨entry, exit⟩ made hmade ⟨rfl, rfl, i, rfl, hi⟩
  refine (hb _ hmade).bind ?_
  rintro ⟨entry, exit⟩ made hmade ⟨rfl, rfl, j, rfl, hj⟩
  refine (runs_add hlimit hmade none).ending ?_
  rintro exit made ⟨rfl, rfl⟩
  have hlength : ∀ n base out, (fragment n reluctant base out).length = stateCount n :=
    fun n => length_fragment n reluctant
  simp only [List.length_append, List.length_singleton, hlength] at hi hj ⊢
  simp only [List.append_assoc, List.cons_append, List.nil_append]
  have hfragment : fragment (.oneOf a b) reluctant before.length = fun out =>
      (⟨none, [.silent (before.length + 1), .silent (before.length + 1 + stateCount a)]⟩ ::
        fragment a reluctant (before.length + 1)
          [.silent (before.length + 1 + stateCount a + stateCount b)] ++
        fragment b reluctant (before.length + 1 + stateCount a)
          [.silent (before.length + 1 + stateCount a + stateCount b)]) ++ [⟨none, out⟩] := by
    funext out
    rw [fragment]
  rw [liftM_self, run_of_ok (wire_oneOf before hi hj (by rw [hlength]) _), hfragment]
  refine ⟨_, _, rfl, ?_, rfl, ?_, _, ?_, (openAt_single none []).append_left _⟩
  · simp only [List.length_append, List.length_cons, List.length_nil, hlength]
    omega
  · simp only [List.append_assoc, List.cons_append]
  · simp only [List.length_append, List.length_cons, hlength]
    omega

theorem makes_group {id : GroupId} {n : Node}
    (hn : Makes limit (assemble limit n reluctant) (reserve limit n) (fragment n reluctant)) :
    Makes limit (assemble limit (.group id n) reluctant) (reserve limit (.group id n))
      (fragment (.group id n) reluctant) := by
  intro before hbefore
  rw [assemble, reserve]
  refine (runs_add hlimit hbefore none).bind ?_
  rintro entry made hmade ⟨rfl, rfl⟩
  refine (hn _ hmade).bind ?_
  rintro ⟨entry, exit⟩ made hmade ⟨rfl, rfl, i, rfl, hi⟩
  refine (runs_add hlimit hmade none).ending ?_
  rintro exit made ⟨rfl, rfl⟩
  simp only [List.length_append, List.length_singleton, length_fragment] at hi ⊢
  simp only [List.append_assoc, List.cons_append, List.nil_append]
  have hfragment : fragment (.group id n) reluctant before.length = fun out =>
      (⟨none, [.marking (.start id) (before.length + 1)]⟩ ::
        fragment n reluctant (before.length + 1)
          [.marking (.stop id) (before.length + 1 + stateCount n)]) ++ [⟨none, out⟩] := by
    funext out
    rw [fragment]
  rw [liftM_self, run_of_ok (wire_group before hi id _), hfragment]
  refine ⟨_, _, rfl, ?_, rfl, ?_, _, ?_, (openAt_single none []).append_left _⟩
  · simp only [List.length_append, List.length_cons, List.length_nil, length_fragment]
    omega
  · simp only [List.cons_append]
  · simp only [List.length_cons, length_fragment]
    omega

omit hlimit in
theorem assembleEach_replicate (n : Node) (count : ℕ) :
    (assembleEach limit (List.replicate count n) reluctant : List (Assembler Ports)) =
      List.replicate count (assemble limit n reluctant) := by
  induction count with
  | zero => rw [List.replicate_zero, List.replicate_zero, assembleEach]
  | succ count ih => rw [List.replicate_succ, List.replicate_succ, assembleEach, ih]

theorem makes_mandatory {n : Node}
    (hn : Makes limit (assemble limit n reluctant) (reserve limit n) (fragment n reluctant))
    (min : ℕ) :
    Makes limit (inOrder limit (List.replicate min (assemble limit n reluctant)))
      (fun used =>
        if min = 0 then take limit used 1 else takeCopies limit (reserve limit n) min used)
      (fun base => mandatory (fragment n reluctant) (stateCount n) base min) := by
  intro before hbefore
  have hcopies : ∀ m ∈ List.replicate min n,
      Makes limit (assemble limit m reluctant) (reserve limit m) (fragment m reluctant) := by
    intro m hm
    rwa [List.eq_of_mem_replicate hm]
  have hfragment : mandatory (fragment n reluctant) (stateCount n) before.length min =
      fragment (.concat (List.replicate min n)) reluctant before.length := by
    funext out
    rw [fragment_mandatory]
  dsimp only
  rw [reserve_mandatory hbefore, ← assembleEach_replicate, hfragment]
  exact makes_inOrder hcopies hlimit before hbefore

omit hlimit in
theorem length_mandatory_fragment (n : Node) (reluctant : Bool) (base min : ℕ)
    (out : List Transition) :
    (mandatory (fragment n reluctant) (stateCount n) base min out).length =
      copiesCount (stateCount n) min :=
  length_mandatory _ _ (length_fragment n reluctant) _ _ _

omit hlimit in
/-- The state behind the mandatory copies is the head of the loop, and the way out. -/
theorem fragment_loop (n : Node) (min : ℕ) (lazily reluctant : Bool) (base : ℕ) :
    fragment (.repeated n min none lazily) reluctant base = fun out =>
      mandatory (fragment n reluctant) (stateCount n) base min
          [.silent (base + copiesCount (stateCount n) min)] ++
        ([⟨none, [.silent (base + copiesCount (stateCount n) min + 1)] ++ out⟩] ++
          fragment n (reluctant || lazily) (base + copiesCount (stateCount n) min + 1)
            [.silent (base + copiesCount (stateCount n) min)]) := by
  funext out
  rw [fragment]
  rfl

omit hlimit in
/-- The state behind the mandatory copies is the way out, and the optional copies follow. -/
theorem fragment_bounded (n : Node) (min max : ℕ) (lazily reluctant : Bool) (base : ℕ) :
    fragment (.repeated n min (some max) lazily) reluctant base = fun out =>
      mandatory (fragment n reluctant) (stateCount n) base min
          (if max - min = 0 then [.silent (base + copiesCount (stateCount n) min)]
            else [.silent (base + copiesCount (stateCount n) min + 1),
              .silent (base + copiesCount (stateCount n) min)]) ++
        ([⟨none, out⟩] ++
          chain (fragment n (reluctant || lazily)) (stateCount n)
            (base + copiesCount (stateCount n) min + 1) (max - min)
            (fun next => [.silent next, .silent (base + copiesCount (stateCount n) min)])
            [.silent (base + copiesCount (stateCount n) min)]) := by
  funext out
  rw [fragment]
  rfl

theorem makes_loop {n : Node}
    (hn : ∀ reluctant,
      Makes limit (assemble limit n reluctant) (reserve limit n) (fragment n reluctant))
    (min : ℕ) (lazily : Bool) :
    Makes limit (assemble limit (.repeated n min none lazily) reluctant)
      (reserve limit (.repeated n min none lazily))
      (fragment (.repeated n min none lazily) reluctant) := by
  intro before hbefore
  rw [assemble, reserve_repeated]
  refine runs_demand fun _ => ?_
  refine (makes_mandatory hlimit (hn reluctant) min before hbefore).bind ?_
  rintro ⟨entry, exit⟩ made hmade ⟨rfl, rfl, i, rfl, hi⟩
  refine (runs_add hlimit hmade none).bind ?_
  rintro loop made hmade ⟨rfl, rfl⟩
  rw [optionalCopies, takeCopies_eq_reserveAll hmade, List.replicate_one, reserveAll_singleton]
  refine (hn (reluctant || lazily) _ hmade).ending ?_
  rintro ⟨entry, exit⟩ made ⟨rfl, rfl, j, rfl, hj⟩
  have hlength := length_mandatory_fragment n reluctant before.length min
  simp only [List.length_append, List.length_singleton, hlength] at hj ⊢
  simp only [List.append_assoc, List.cons_append, List.nil_append]
  rw [liftM_self, run_of_ok (wire_loop before hi hj (by rw [hlength]))]
  rw [fragment_loop]
  refine ⟨_, _, rfl, ?_, rfl, rfl, _, ?_,
    ((openAt_single none _).append_right _).append_left _⟩
  · simp only [List.length_append, List.length_cons, hlength, length_fragment]
    omega
  · rw [hlength, Nat.add_zero]

theorem makes_bounded {n : Node}
    (hn : ∀ reluctant,
      Makes limit (assemble limit n reluctant) (reserve limit n) (fragment n reluctant))
    (min max : ℕ) (lazily : Bool) :
    Makes limit (assemble limit (.repeated n min (some max) lazily) reluctant)
      (reserve limit (.repeated n min (some max) lazily))
      (fragment (.repeated n min (some max) lazily) reluctant) := by
  intro before hbefore
  rw [assemble, reserve_repeated]
  refine runs_demand fun _ => ?_
  refine (makes_mandatory hlimit (hn reluctant) min before hbefore).bind ?_
  rintro ⟨entry, exit⟩ made hmade ⟨rfl, rfl, i, rfl, hi⟩
  refine (runs_add hlimit hmade none).bind ?_
  rintro exit made hmade ⟨rfl, rfl⟩
  have hlength := length_mandatory_fragment n reluctant before.length min
  have hcopies : ∀ m ∈ List.replicate (max - min) n, Makes limit
      (assemble limit m (reluctant || lazily)) (reserve limit m)
      (fragment m (reluctant || lazily)) := by
    intro m hm
    rw [List.eq_of_mem_replicate hm]
    exact hn _
  rw [optionalCopies, takeCopies_eq_reserveAll hmade, ← assembleEach_replicate]
  rw [List.append_assoc] at hmade ⊢
  refine (runs_attach hcopies _ (hi.append_right [⟨none, []⟩]) hmade).ending ?_
  rintro last made ⟨-, rfl, j, rfl, hj⟩
  have hlink := (hj.append_left before).run_link []
  rw [liftM_self, run_of_ok (hlink _), List.nil_append]
  have hopen : ∀ out, (mandatory (fragment n reluctant) (stateCount n) before.length min out ++
      [State.mk none []]).length = copiesCount (stateCount n) min + 1 := by
    intro out
    rw [List.length_append, hlength, List.length_singleton]
  have hstrung := strung_replicate (fun next => [.silent next,
      .silent (before.length + copiesCount (stateCount n) min)]) (reluctant || lazily) before.length
    (fun out => (hopen out).trans (hopen []).symm) n (max - min)
  have hsame := hj.length [.silent (before.length + copiesCount (stateCount n) min)]
  simp only [List.length_append, List.length_singleton, hlength, ← Nat.add_assoc]
    at hstrung hsame ⊢
  rw [fragment_bounded]
  refine ⟨_, _, rfl, ?_, rfl, ?_, _, ?_, ((openAt_single none []).append_right _).append_left _⟩
  · rw [List.length_append, hsame]
  · rw [hstrung, List.append_assoc]
  · rw [hlength, Nat.add_zero]

end

theorem Makes.congr {limit : ℕ} {x : Assembler Ports} {account account' : ℕ → Except BuildError ℕ}
    {g g' : ℕ → List Transition → List State} (h : Makes limit x account g)
    (ha : ∀ used, account' used = account used) (hg : ∀ base out, g' base out = g base out) :
    Makes limit x account' g' := by
  obtain rfl : account' = account := funext ha
  obtain rfl : g' = g := funext fun base => funext (hg base)
  exact h

mutual

/-- The assembly of a pattern makes its fragment, and goes as `reserve` does. -/
theorem makes_assemble {limit : ℕ} (hlimit : limit ≤ Ident.capacity) : (n : Node) →
    (reluctant : Bool) → Makes limit (assemble limit n reluctant) (reserve limit n)
      (fragment n reluctant)
  | .empty, reluctant => by
    rw [assemble]
    exact (makes_single hlimit).congr (fun _ => by rw [reserve]) fun _ _ => by rw [fragment]
  | .endOfInput, reluctant => by
    rw [assemble]
    exact (makes_consuming hlimit _ _).congr (fun _ => by rw [reserve]) fun _ _ => by rw [fragment]
  | .text cs, reluctant => makes_text hlimit cs
  | .set points, reluctant => by
    rw [assemble]
    exact (makes_consuming hlimit _ _).congr (fun _ => by rw [reserve]) fun _ _ => by rw [fragment]
  | .concat ns, reluctant => by
    rw [assemble]
    exact makes_inOrder (makes_assembleEach hlimit ns reluctant) hlimit
  | .oneOf a b, reluctant =>
    makes_oneOf hlimit (makes_assemble hlimit a reluctant) (makes_assemble hlimit b reluctant)
  | .repeated n min none lazily, _ => makes_loop hlimit (makes_assemble hlimit n) min lazily
  | .repeated n min (some max) lazily, _ =>
    makes_bounded hlimit (makes_assemble hlimit n) min max lazily
  | .group _ n, reluctant => makes_group hlimit (makes_assemble hlimit n reluctant)

theorem makes_assembleEach {limit : ℕ} (hlimit : limit ≤ Ident.capacity) : (ns : List Node) →
    (reluctant : Bool) → ∀ n ∈ ns, Makes limit (assemble limit n reluctant)
      (reserve limit n) (fragment n reluctant)
  | [], _, n, hn => absurd hn List.not_mem_nil
  | m :: ns, reluctant, n, hn => by
    have hm := makes_assemble hlimit m reluctant
    have hns := makes_assembleEach hlimit ns reluctant
    rcases List.mem_cons.1 hn with rfl | hn
    · exact hm
    · exact hns n hn

end

/-! ### Automata -/

theorem wire_accept (entries : List Transition) (made : List State)
    {f : List Transition → List State} {i : ℕ} (hi : OpenAt f i) (pattern : ℕ) {accept : ℕ}
    (haccept : made.length + 1 + (f []).length = accept) :
    wire [(accept, .consuming .endOfInput false accept), (start, .silent (made.length + 1)),
        (made.length + 1 + i, .silent accept)]
      (State.mk none entries :: (made ++ (f [] ++ [.mk (some pattern) []]))).toArray =
      .ok ((), (State.mk none (entries ++ [.silent (made.length + 1)]) ::
        (made ++ (f [.silent accept] ++ [acceptState pattern accept]))).toArray) := by
  have hloop := (openAt_single (some pattern) []).run_link_between
    (State.mk none entries :: (made ++ f [])) [] [] (.consuming .endOfInput false accept)
  have hentry := (openAt_single none entries).run_link_between []
    (made ++ (f [] ++ [acceptState pattern accept])) [] (.silent (made.length + 1))
  have hexit := hi.run_link_between
    (State.mk none (entries ++ [.silent (made.length + 1)]) :: made) [acceptState pattern accept] []
    (.silent accept)
  simp only [List.append_assoc, List.length_append, List.length_cons, List.length_nil,
    List.cons_append, List.nil_append, List.append_nil, Nat.add_zero] at hloop hentry hexit
  rw [Nat.add_right_comm, haccept, ← acceptState] at hloop
  rw [wire, run_of_ok hloop, wire, start, run_of_ok hentry, wire, run_of_ok hexit]
  rfl

theorem runs_assemblePatterns {limit : ℕ} (hlimit : limit ≤ Ident.capacity) {ns : List Node}
    {entries : List Transition} {made : List State} {pattern : ℕ} (hmade : made.length + 1 ≤ limit)
    (hpattern : pattern + ns.length ≤ Ident.capacity) :
    Runs limit
      (fun _ made' => made' = ⟨none, entries ++ (entryPoints ns (made.length + 1)).map .silent⟩ ::
        (made ++ patternStates ns pattern (made.length + 1)))
      (reservePatterns limit ns (made.length + 1))
      ((assemblePatterns limit pattern ns : Assembler Unit)
        (State.mk none entries :: made).toArray) := by
  induction ns generalizing entries made pattern with
  | nil =>
    rw [reservePatterns, assemblePatterns]
    refine .done rfl hmade ?_
    rw [entryPoints, patternStates, List.map_nil, List.append_nil, List.append_nil]
  | cons n ns ih =>
    rw [List.length_cons] at hpattern
    have hindex : index pattern (State.mk none entries :: made).toArray =
        .ok ((), (State.mk none entries :: made).toArray) := if_neg (by omega)
    rw [reservePatterns, assemblePatterns, liftM_self, run_of_ok hindex]
    refine (makes_assemble hlimit n false (⟨none, entries⟩ :: made) hmade).bind ?_
    rintro ⟨entry, exit⟩ states hstates ⟨rfl, rfl, i, rfl, hi⟩
    refine (runs_add hlimit hstates (some pattern)).bind ?_
    rintro accept states hstates ⟨rfl, rfl⟩
    have hlength := length_fragment n false (made.length + 1)
    simp only [List.length_append, List.length_cons, List.length_nil, List.append_assoc,
      List.cons_append, hlength, Nat.zero_add] at hi hstates ⊢
    have haccept : made.length + (stateCount n + 1) = made.length + 1 + stateCount n := by omega
    rw [haccept] at hstates ⊢
    rw [Nat.add_right_comm made.length (stateCount n) 1]
    rw [liftM_self, run_of_ok (wire_accept entries made hi pattern (by rw [hlength]))]
    generalize hrest : made ++ (fragment n false (made.length + 1)
      [.silent (made.length + 1 + stateCount n)] ++
        [acceptState pattern (made.length + 1 + stateCount n)]) = rest
    have hsize : rest.length = made.length + 1 + stateCount n := by
      rw [← hrest, List.length_append, List.length_append, List.length_singleton, hlength]
      exact haccept
    rw [← hsize] at hstates ⊢
    refine (ih hstates (show pattern + 1 + ns.length ≤ Ident.capacity by omega)).mono ?_
    rintro - - rfl
    rw [hsize, ← hrest, entryPoints, patternStates, List.map_cons]
    simp only [List.append_assoc, List.cons_append, List.nil_append]

theorem runs_assembleNodes {limit : ℕ} (hlimit : limit ≤ Ident.capacity) {nodes : List Node}
    (hnodes : nodes.length ≤ Ident.capacity) :
    Runs limit (fun _ made => made.toArray = (ofNodes nodes).states)
      (take limit 0 1 >>= reservePatterns limit nodes)
      ((assembleNodes limit nodes : Assembler Unit) #[]) := by
  have hempty : ([] : List State).length ≤ limit := Nat.zero_le limit
  refine (runs_add hlimit hempty none).bind ?_
  rintro id made hmade ⟨-, rfl⟩
  refine (runs_assemblePatterns hlimit hmade (by omega)).mono ?_
  rintro - - rfl
  rfl

/-- Building an automaton state by state comes to the automaton that is put together from fragments,
with no more states than the limit, or fails as its account does. -/
theorem checkedBuild_spec (limits : Limits) (nodes : List Node) :
    checkedBuild limits nodes = (build limits nodes).mapError .refused ∧
      ∀ a, build limits nodes = .ok a → a.size ≤ limits.stateLimit := by
  rw [checkedBuild, build]
  split
  case isTrue => exact ⟨rfl, fun _ ha => by cases ha⟩
  split
  case isTrue => exact ⟨rfl, fun _ ha => by cases ha⟩
  case isFalse hpatterns =>
    have hlimit : limits.stateLimit ≤ Ident.capacity := Nat.min_le_right _ _
    have hcapacity : limits.patternLimit ≤ Ident.capacity := Nat.min_le_right _ _
    have hruns := runs_assembleNodes hlimit
      (Nat.le_trans (Nat.le_of_not_lt hpatterns) hcapacity)
    rw [show (do
        let used ← take limits.stateLimit 0 1
        let _ ← reservePatterns limits.stateLimit nodes used
        return ofNodes nodes) = (take limits.stateLimit 0 1 >>=
          reservePatterns limits.stateLimit nodes) >>= fun _ => return ofNodes nodes
      from (bind_assoc _ _ _).symm]
    generalize take limits.stateLimit 0 1 >>= reservePatterns limits.stateLimit nodes = account
      at hruns ⊢
    generalize (assembleNodes limits.stateLimit nodes : Assembler Unit) #[] = result at hruns ⊢
    cases hruns with
    | refused e => exact ⟨rfl, fun _ ha => by cases ha⟩
    | done hsize hle hstates =>
      refine ⟨?_, fun a ha => ?_⟩
      · change Except.ok (Nfa.mk _ nodes.length) = _
        rw [hstates]
        rfl
      · cases ha
        rw [size, ← hstates, List.size_toArray, hsize]
        exact hle

end PatternAutomata.Nfa
