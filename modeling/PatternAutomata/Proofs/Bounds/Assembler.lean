import PatternAutomata.Proofs.Accounts
import PatternAutomata.Proofs.Bounds.Access

/-!
Making states one by one. States are added to an array, and a state is linked to others once they
are there. A computation runs as its account does: both are refused for the same reason, or the
states made are those that are then in use.
-/

set_option autoImplicit false

namespace PatternAutomata.Nfa

open Fault (read write)

/-- Where a part is entered and where it is left. -/
structure Ports where
  entry : ℕ
  exit : ℕ

abbrev Assembler := StateT (Array State) (Except (Failure BuildError))

namespace Assembler

def add (limit : ℕ) (domain : Option ℕ) : Assembler ℕ := fun states =>
  if limit ≤ states.size then .error (.refused (.tooManyStates (states.size + 1) limit))
  else if Ident.capacity ≤ states.size then .error (.fault .outOfRange)
  else .ok (states.size, states.push ⟨domain, []⟩)

def link (source : ℕ) (t : Transition) : Assembler Unit := fun states => do
  let s ← (read states source).mapError .fault
  let states ← (write states source { s with transitions := s.transitions ++ [t] }).mapError .fault
  return ((), states)

def wire : List (ℕ × Transition) → Assembler Unit
  | [] => return ()
  | (source, t) :: links => do
    link source t
    wire links

def demand {α : Type} (x : Except BuildError α) : Assembler α := fun states =>
  (x.mapError .refused).map fun a => (a, states)

def index (id : ℕ) : Assembler Unit := fun states =>
  if Ident.capacity ≤ id then .error (.fault .outOfRange) else .ok ((), states)

theorem liftM_self {α : Type} (x : Assembler α) : (liftM x : Assembler α) = x := rfl

section

variable {m : Type → Type} [Monad m] [MonadLiftT Assembler m]

def single (limit : ℕ) : m Ports := do
  let id ← add limit none
  return ⟨id, id⟩

def consuming (limit : ℕ) (points : PointSet) (reluctant : Bool) : m Ports := do
  let entry ← add limit none
  let exit ← add limit none
  link entry (.consuming points reluctant exit)
  return ⟨entry, exit⟩

def spell (limit : ℕ) (reluctant : Bool) : (last : ℕ) → List Char → m ℕ
  | last, [] => return last
  | last, c :: cs => do
    let next ← add limit none
    link last (.consuming (.single c) reluctant next)
    spell limit reluctant next cs

/-- Goes on from `last` through some parts, with `links` from the exit of each to the next one. -/
def attach (links : (next : ℕ) → List Transition) : (last : ℕ) → List (m Ports) → m ℕ
  | last, [] => return last
  | last, part :: parts => do
    let ports ← part
    (forM (links ports.entry) (link last) : Assembler Unit)
    attach links ports.exit parts

def inOrder (limit : ℕ) : List (m Ports) → m Ports
  | [] => single limit
  | part :: parts => do
    let ports ← part
    let exit ← attach (fun next => [.silent next]) ports.exit parts
    return ⟨ports.entry, exit⟩

end

end Assembler

open Assembler

/-! ### Runs -/

/-- An assembly that goes as its account does: both fail alike, or the states made are those that
are then in use. -/
inductive Runs {α : Type} (limit : ℕ) (Q : α → List State → Prop) :
    Except BuildError ℕ → Except (Failure BuildError) (α × Array State) → Prop
  | refused (e : BuildError) : Runs limit Q (.error e) (.error (.refused e))
  | done {used : ℕ} {a : α} {states : List State} (hsize : states.length = used)
    (hle : used ≤ limit) (h : Q a states) : Runs limit Q (.ok used) (.ok (a, states.toArray))

section

variable {α β : Type} {limit : ℕ} {Q : α → List State → Prop} {R : β → List State → Prop}
  {account : Except BuildError ℕ} {x : Assembler α} {states : Array State}

theorem run_of_ok {a : α} {states' : Array State} (h : x states = .ok (a, states'))
    (f : α → Assembler β) : (x >>= f) states = f a states' := by
  change x states >>= (fun r => f r.1 r.2) = _
  rw [h]
  rfl

theorem Runs.bind (h : Runs limit Q account (x states)) {next : ℕ → Except BuildError ℕ}
    {f : α → Assembler β} (hf : ∀ a made, made.length ≤ limit → Q a made →
      Runs limit R (next made.length) (f a made.toArray)) :
    Runs limit R (account >>= next) ((x >>= f) states) := by
  change Runs limit R _ (x states >>= fun r => f r.1 r.2)
  generalize x states = result at h
  cases h with
  | refused e => exact .refused e
  | done hsize hle h =>
    cases hsize
    exact hf _ _ hle h

theorem Runs.mono {result : Except (Failure BuildError) (α × Array State)}
    (h : Runs limit Q account result) {Q' : α → List State → Prop}
    (hq : ∀ a made, Q a made → Q' a made) : Runs limit Q' account result := by
  cases h with
  | refused e => exact .refused e
  | done hsize hle h => exact .done hsize hle (hq _ _ h)

theorem Runs.ending (h : Runs limit Q account (x states)) {f : α → Assembler β}
    (hf : ∀ a made, Q a made → ∃ b made', f a made.toArray = .ok (b, made'.toArray) ∧
      made'.length = made.length ∧ R b made') :
    Runs limit R account ((x >>= f) states) := by
  rw [← bind_pure account]
  refine h.bind fun a made hle hq => ?_
  obtain ⟨b, made', hb, hlength, hr⟩ := hf a made hq
  rw [hb]
  exact .done hlength hle hr

theorem runs_demand {x : Except BuildError Unit} {f : Unit → Assembler β} {states : Array State}
    (h : x = .ok () → Runs limit R account (f () states)) :
    Runs limit R (x >>= fun _ => account) ((demand x >>= f) states) := by
  cases x with
  | error e => exact .refused e
  | ok _ => exact h rfl

end

/-- States that, whatever transitions are given for one of them, have these behind its own. -/
def OpenAt (f : (out : List Transition) → List State) (i : ℕ) : Prop :=
  ∃ before domain own after, before.length = i ∧
    ∀ out, f out = before ++ ⟨domain, own ++ out⟩ :: after

theorem openAt_single (domain : Option ℕ) (own : List Transition) :
    OpenAt (fun out => [⟨domain, own ++ out⟩]) 0 :=
  ⟨[], domain, own, [], rfl, fun _ => rfl⟩

theorem openAt_literal (cs : List Char) (reluctant : Bool) (base : ℕ) :
    OpenAt (literal cs reluctant base) cs.length := by
  refine ⟨_, none, [], [], ?_, fun _ => rfl⟩
  rw [List.length_map, List.length_zipIdx]

section

variable {f : List Transition → List State} {i : ℕ} (h : OpenAt f i)

include h

theorem OpenAt.length (out : List Transition) : (f out).length = (f []).length := by
  obtain ⟨before, domain, own, after, -, hf⟩ := h
  rw [hf, hf, List.length_append, List.length_append, List.length_cons, List.length_cons]

theorem OpenAt.append_left (before : List State) :
    OpenAt (fun out => before ++ f out) (before.length + i) := by
  obtain ⟨before', domain, own, after, rfl, hf⟩ := h
  refine ⟨before ++ before', domain, own, after, List.length_append, fun out => ?_⟩
  simp only [hf, List.append_assoc]

theorem OpenAt.append_right (after : List State) : OpenAt (fun out => f out ++ after) i := by
  obtain ⟨before, domain, own, after', rfl, hf⟩ := h
  refine ⟨before, domain, own, after' ++ after, rfl, fun out => ?_⟩
  simp only [hf, List.append_assoc, List.cons_append]

theorem OpenAt.run_link (out : List Transition) (t : Transition) :
    link i t (f out).toArray = .ok ((), (f (out ++ [t])).toArray) := by
  obtain ⟨before, domain, own, after, rfl, hf⟩ := h
  have hread : read (f out).toArray before.length = .ok ⟨domain, own ++ out⟩ := by
    rw [Fault.read_eq_ok, List.getElem?_toArray, hf, List.getElem?_append_right (Nat.le_refl _),
      Nat.sub_self]
    rfl
  have hwrite : ∀ s, write (f out).toArray before.length s =
      .ok (before ++ s :: after).toArray := by
    intro s
    have hlt : before.length < (f out).toArray.size := by
      rw [List.size_toArray, hf, List.length_append, List.length_cons]
      omega
    rw [Fault.write_of_lt hlt, List.setIfInBounds_toArray, hf,
      List.set_append_right _ _ (Nat.le_refl _), Nat.sub_self]
    rfl
  rw [link, bind_of_ok (mapError_of_ok hread _), bind_of_ok (mapError_of_ok (hwrite _) _), hf,
    ← List.append_assoc]
  rfl

theorem OpenAt.run_links (out ts : List Transition) :
    forM ts (link i) (f out).toArray = .ok ((), (f (out ++ ts)).toArray) := by
  induction ts generalizing out with
  | nil =>
    rw [List.append_nil]
    rfl
  | cons t ts ih =>
    rw [List.forM_cons, run_of_ok (h.run_link out t), ih, List.append_assoc]
    rfl

theorem OpenAt.run_link_between (before after : List State) (out : List Transition)
    (t : Transition) :
    link (before.length + i) t (before ++ (f out ++ after)).toArray =
      .ok ((), (before ++ (f (out ++ [t]) ++ after)).toArray) :=
  ((h.append_right after).append_left before).run_link out t

end

/-- A part made behind some states: it is entered at its first state, and its exit is open. -/
structure Part (before : List State) (f : (out : List Transition) → List State) (ports : Ports)
    (made : List State) : Prop where
  entry : ports.entry = before.length
  made : made = before ++ f []
  exit : ∃ i, ports.exit = before.length + i ∧ OpenAt f i

/-- An assembly makes the fragments `g` wherever it starts, and goes as its account does. -/
def Makes (limit : ℕ) (x : Assembler Ports) (account : ℕ → Except BuildError ℕ)
    (g : (base : ℕ) → (out : List Transition) → List State) : Prop :=
  ∀ before : List State, before.length ≤ limit →
    Runs limit (Part before (g before.length)) (account before.length) (x before.toArray)

section

variable {limit : ℕ} (hlimit : limit ≤ Ident.capacity)

include hlimit

theorem runs_add {before : List State} (hbefore : before.length ≤ limit) (domain : Option ℕ) :
    Runs limit (fun id made => id = before.length ∧ made = before ++ [⟨domain, []⟩])
      (take limit before.length 1) (add limit domain before.toArray) := by
  rw [take, add, List.size_toArray]
  by_cases hle : before.length + 1 ≤ limit
  · rw [if_pos hle, if_neg (by omega), if_neg (by omega), List.push_toArray]
    exact .done List.length_append hle ⟨rfl, rfl⟩
  · rw [if_neg hle, if_pos (by omega), show before.length = limit by omega]
    exact .refused _

theorem makes_single : Makes limit (single limit) (fun used => take limit used 1)
    (fun _ out => [⟨none, out⟩]) := by
  intro before hbefore
  refine (runs_add hlimit hbefore none).ending ?_
  rintro id made ⟨rfl, rfl⟩
  exact ⟨_, _, rfl, rfl, rfl, rfl, 0, rfl, openAt_single none []⟩

theorem makes_consuming (points : PointSet) (reluctant : Bool) :
    Makes limit (consuming limit points reluctant) (fun used => take limit used 2)
      (consume points reluctant) := by
  intro before hbefore
  change Runs limit _ (take limit before.length (1 + 1)) _
  rw [take_add]
  refine (runs_add hlimit hbefore none).bind ?_
  rintro entry made hmade ⟨rfl, rfl⟩
  refine (runs_add hlimit hmade none).ending ?_
  rintro exit made ⟨rfl, rfl⟩
  rw [List.length_append, List.length_singleton]
  have hlink : link before.length (.consuming points reluctant (before.length + 1))
      (before ++ [State.mk none []] ++ [State.mk none []]).toArray =
      .ok ((), (before ++ consume points reluctant before.length []).toArray) := by
    rw [List.append_assoc]
    exact (openAt_single none []).run_link_between before [⟨none, []⟩] [] _
  refine ⟨_, _, run_of_ok hlink _, ?_, rfl, rfl, 1, rfl, ?_⟩
  · rw [List.length_append, List.length_append, List.length_append]
    rfl
  · exact (openAt_single none []).append_left
      [⟨none, [.consuming points reluctant (before.length + 1)]⟩]

theorem runs_spell (reluctant : Bool) (before : List State) (cs : List Char)
    (hbefore : before.length + 1 ≤ limit) :
    Runs limit (fun exit made => exit = before.length + cs.length ∧
        made = before ++ literal cs reluctant before.length [])
      (take limit (before.length + 1) cs.length)
      ((spell limit reluctant before.length cs : Assembler ℕ)
        (before ++ [State.mk none []]).toArray) := by
  induction cs generalizing before with
  | nil =>
    rw [List.length_nil, take_zero hbefore]
    exact .done List.length_append hbefore ⟨rfl, rfl⟩
  | cons c cs ih =>
    have hlength : (before ++ [State.mk none []]).length = before.length + 1 :=
      List.length_append
    rw [List.length_cons, Nat.add_comm cs.length, take_add, spell, ← hlength]
    refine (runs_add hlimit (by rwa [hlength]) none).bind ?_
    rintro next made hmade ⟨rfl, rfl⟩
    rw [List.length_append, hlength] at hmade ⊢
    have hlink : link before.length (.consuming (.single c) reluctant (before.length + 1))
        (before ++ [State.mk none []] ++ [State.mk none []]).toArray =
        .ok ((), (before ++
          [State.mk none [.consuming (.single c) reluctant (before.length + 1)]] ++
          [State.mk none []]).toArray) := by
      rw [List.append_assoc, List.append_assoc]
      exact (openAt_single none []).run_link_between before [⟨none, []⟩] [] _
    rw [liftM_self, run_of_ok hlink]
    have hnext := ih (before ++ [.mk none [.consuming (.single c) reluctant (before.length + 1)]])
    simp only [List.length_append, List.length_singleton] at hnext
    refine (hnext hmade).mono ?_
    rintro exit made ⟨rfl, rfl⟩
    exact ⟨Nat.add_assoc _ _ _, List.append_assoc before _ _⟩

end

end PatternAutomata.Nfa
