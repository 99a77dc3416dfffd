import PatternAutomata.Proofs.Bounds.Assembly

/-!
Making states in an array that is kept from one build to the next. A build that ends early leaves
there what it has made by then, so the array is cleared before the first state is made, and what a
build comes to is the same whatever is left in it.
-/

set_option autoImplicit false

namespace PatternAutomata.Nfa

/-- A computation on the states made so far, which are left behind if it fails. -/
abbrev Drafter := ExceptT (Failure BuildError) (StateM (Array State))

namespace Drafter

/-- Does something that makes at most one state, and leaves all as it is if that fails. Several
links may be one step, as they fail on nothing but a fault. -/
def step {α : Type} (x : Assembler α) : Drafter α := ExceptT.mk fun states =>
  match x states with
  | .ok (a, states) => (.ok a, states)
  | .error e => (.error e, states)

instance : MonadLift Assembler Drafter := ⟨step⟩

def forget {α : Type} (x : Drafter α) : Assembler α := fun states =>
  match x.run.run states with
  | (.ok a, states) => .ok (a, states)
  | (.error e, _) => .error e

end Drafter

open Drafter (forget)

/-- Builds an automaton in an array that may have anything in it. Too few or too many patterns leave
that there; a success takes the states out, and any other failure leaves those made so far. -/
def draftBuild (limits : Limits) (nodes : List Node) : Drafter Nfa :=
  if nodes.isEmpty then throw (.refused .noPatterns)
  else if limits.patternLimit < nodes.length then
    throw (.refused (.tooManyPatterns nodes.length limits.patternLimit))
  else do
    set (#[] : Array State)
    assembleNodes limits.stateLimit nodes
    let states ← get
    set (#[] : Array State)
    return ⟨states, nodes.length⟩

/-! ### What is left behind does not matter -/

namespace Drafter

section

variable {α β : Type}

theorem forget_liftM (x : Assembler α) : forget (liftM x) = x := by
  funext states
  change (match (match x states with
    | .ok (a, states) => (Except.ok a, states)
    | .error e => (Except.error e, states)) with
    | (.ok a, states) => Except.ok (a, states)
    | (.error e, _) => .error e) = x states
  cases x states <;> rfl

theorem forget_pure (a : α) : forget (pure a) = pure a := rfl

theorem forget_bind (x : Drafter α) (f : α → Drafter β) :
    forget (x >>= f) = forget x >>= fun a => forget (f a) := by
  funext states
  simp only [forget, ExceptT.run_bind, StateT.run_bind]
  change _ = (match x.run.run states with
    | (.ok a, states) => Except.ok (a, states)
    | (.error e, _) => .error e) >>= fun r => forget (f r.1) r.2
  generalize x.run.run states = r
  obtain ⟨e | a, s⟩ := r
  · rfl
  · rfl

end

theorem forget_single (limit : ℕ) : forget (Assembler.single limit) = Assembler.single limit := by
  simp only [Assembler.single, forget_bind, forget_liftM, forget_pure, Assembler.liftM_self]

theorem forget_consuming (limit : ℕ) (points : PointSet) (reluctant : Bool) :
    forget (Assembler.consuming limit points reluctant) =
      Assembler.consuming limit points reluctant := by
  simp only [Assembler.consuming, forget_bind, forget_liftM, forget_pure, Assembler.liftM_self]

theorem forget_spell (limit : ℕ) (reluctant : Bool) (last : ℕ) (cs : List Char) :
    forget (Assembler.spell limit reluctant last cs) = Assembler.spell limit reluctant last cs := by
  induction cs generalizing last with
  | nil => rfl
  | cons c cs ih =>
    simp only [Assembler.spell, forget_bind, forget_liftM, Assembler.liftM_self, ih]

theorem forget_attach (links : (next : ℕ) → List Transition) (last : ℕ)
    (parts : List (Drafter Ports)) :
    forget (Assembler.attach links last parts) =
      Assembler.attach links last (parts.map forget) := by
  induction parts generalizing last with
  | nil => rfl
  | cons part parts ih =>
    simp only [List.map_cons, Assembler.attach, forget_bind, forget_liftM, Assembler.liftM_self, ih]

theorem forget_inOrder (limit : ℕ) (parts : List (Drafter Ports)) :
    forget (Assembler.inOrder limit parts) = Assembler.inOrder limit (parts.map forget) := by
  cases parts with
  | nil => exact forget_single limit
  | cons part parts =>
    simp only [List.map_cons, Assembler.inOrder, forget_bind, forget_pure, forget_attach]

end Drafter

open Drafter (forget_bind forget_liftM forget_pure)

mutual

theorem forget_assemble (limit : ℕ) : ∀ (n : Node) (reluctant : Bool),
    forget (assemble limit n reluctant) = assemble limit n reluctant
  | .empty, _ => by
    rw [assemble, assemble, Drafter.forget_single]
  | .endOfInput, reluctant => by
    rw [assemble, assemble, Drafter.forget_consuming]
  | .text cs, reluctant => by
    simp only [assemble, forget_bind, forget_liftM, forget_pure, Drafter.forget_spell,
      Assembler.liftM_self]
  | .set points, reluctant => by
    rw [assemble, assemble, Drafter.forget_consuming]
  | .concat ns, reluctant => by
    rw [assemble, assemble, Drafter.forget_inOrder, map_forget_assembleEach limit ns reluctant]
  | .oneOf a b, reluctant => by
    simp only [assemble, forget_bind, forget_liftM, forget_pure, Assembler.liftM_self,
      forget_assemble limit a reluctant, forget_assemble limit b reluctant]
  | .repeated n min none lazily, reluctant => by
    simp only [assemble, forget_bind, forget_liftM, forget_pure, Drafter.forget_inOrder,
      Assembler.liftM_self, List.map_replicate, forget_assemble limit n reluctant,
      forget_assemble limit n (reluctant || lazily)]
  | .repeated n min (some max) lazily, reluctant => by
    simp only [assemble, forget_bind, forget_liftM, forget_pure, Drafter.forget_inOrder,
      Drafter.forget_attach, Assembler.liftM_self, List.map_replicate,
      forget_assemble limit n reluctant, forget_assemble limit n (reluctant || lazily)]
  | .group id n, reluctant => by
    simp only [assemble, forget_bind, forget_liftM, forget_pure, Assembler.liftM_self,
      forget_assemble limit n reluctant]

theorem map_forget_assembleEach (limit : ℕ) : ∀ (ns : List Node) (reluctant : Bool),
    (assembleEach limit ns reluctant).map forget = assembleEach limit ns reluctant
  | [], _ => by
    rw [assembleEach, assembleEach, List.map_nil]
  | n :: ns, reluctant => by
    rw [assembleEach, assembleEach, List.map_cons, forget_assemble limit n reluctant,
      map_forget_assembleEach limit ns reluctant]

end

theorem forget_assemblePatterns (limit pattern : ℕ) (ns : List Node) :
    forget (assemblePatterns limit pattern ns) = assemblePatterns limit pattern ns := by
  induction ns generalizing pattern with
  | nil => rfl
  | cons n ns ih =>
    simp only [assemblePatterns, forget_bind, forget_liftM, forget_assemble, Assembler.liftM_self,
      ih]

theorem forget_assembleNodes (limit : ℕ) (nodes : List Node) :
    forget (assembleNodes limit nodes) = assembleNodes limit nodes := by
  simp only [assembleNodes, forget_bind, forget_liftM, forget_assemblePatterns,
    Assembler.liftM_self]

/-- A build that gets as far as making states makes them in an empty array. -/
theorem run_draftBuild {limits : Limits} {nodes : List Node} (hsome : ¬ nodes.isEmpty = true)
    (hfew : ¬ limits.patternLimit < nodes.length) (arena : Array State) :
    (draftBuild limits nodes).run.run arena =
      match (assembleNodes limits.stateLimit nodes : Drafter Unit).run.run #[] with
      | (.ok _, states) => (.ok ⟨states, nodes.length⟩, #[])
      | (.error e, states) => (.error e, states) := by
  rw [draftBuild, if_neg hsome, if_neg hfew]
  -- Clearing comes first, and nothing looks at the array before.
  change StateT.run
    (ExceptT.run ((assembleNodes limits.stateLimit nodes : Drafter Unit) >>= _)) #[] = _
  rw [ExceptT.run_bind, StateT.run_bind]
  generalize StateT.run
    (ExceptT.run ((assembleNodes limits.stateLimit nodes : Drafter Unit))) #[] = r
  obtain ⟨e | _, states⟩ := r
  · rfl
  · rfl

/-- Whatever is in the array, the automaton or the error is the same. -/
theorem draftBuild_fst (limits : Limits) (nodes : List Node) (arena : Array State) :
    ((draftBuild limits nodes).run.run arena).1 = (build limits nodes).mapError .refused := by
  rw [← (checkedBuild_spec limits nodes).1]
  by_cases hsome : nodes.isEmpty = true
  · rw [draftBuild, checkedBuild, if_pos hsome, if_pos hsome]
    rfl
  by_cases hfew : limits.patternLimit < nodes.length
  · rw [draftBuild, checkedBuild, if_neg hsome, if_pos hfew, if_neg hsome, if_pos hfew]
    rfl
  rw [run_draftBuild hsome hfew, checkedBuild, if_neg hsome, if_neg hfew, ← forget_assembleNodes,
    forget]
  generalize (assembleNodes limits.stateLimit nodes : Drafter Unit).run.run #[] = r
  obtain ⟨e | _, states⟩ := r
  · rfl
  · rfl

/-- A failure in the middle leaves four states behind, and what was there before is gone. -/
example : ((draftBuild .unset [.text ['a'], .repeated .empty 2 (some 1) false]).run.run
    #[⟨some 7, []⟩]).map (fun _ => ()) Array.size = ((), 4) := by decide +kernel

end PatternAutomata.Nfa
