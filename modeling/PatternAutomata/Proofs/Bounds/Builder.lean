import PatternAutomata.Proofs.Acceleration
import PatternAutomata.Proofs.Bounds.Ambiguity
import PatternAutomata.Proofs.Bounds.Assembly
import PatternAutomata.Proofs.Bounds.Session
import PatternAutomata.Proofs.StateLimit
import PatternAutomata.Proofs.Which

/-!
Everything stays inside: from trees to a program, stage by stage, and then in whatever a matcher of
the program is made to do.
-/

set_option autoImplicit false

namespace PatternAutomata.Builder

def checkedOfDfa (b : Builder) (d : Dfa) : Except (Failure BuildError) Program := do
  if b.options.rejectsAmbiguous then
    match ← d.checkedAmbiguities.mapError .fault with
    | x :: _ => .error (.refused (.ambiguous x))
    | [] => (Program.checkedOfDfa d b.options.accelerates).mapError .fault
  else (Program.checkedOfDfa d b.options.accelerates).mapError .fault

def checkedOfNodes (b : Builder) (nodes : List Node) : Except (Failure BuildError) Program := do
  let a ← (Nfa.checkedBuild b.limits nodes).mapError (.map .nfa)
  let d ← (a.checkedDeterminize b.options.stateLimitInForce).mapError (.map .dfa)
  b.checkedOfDfa d

theorem checkedOfDfa_eq (b : Builder) {d : Dfa} (hd : d.InRange) (hsize : d.size ≤ Ident.capacity) :
    b.checkedOfDfa d = (b.ofDfa d).mapError .refused := by
  have hprogram : (Program.checkedOfDfa d b.options.accelerates).mapError Failure.fault =
      (.ok (.ofDfa d b.options.accelerates) : Except (Failure BuildError) Program) :=
    mapError_of_ok (Program.checkedOfDfa_eq hd hsize _) _
  rw [checkedOfDfa, ofDfa]
  split
  case isTrue =>
    rw [bind_of_ok (mapError_of_ok (Dfa.checkedAmbiguities_eq hd) _)]
    cases d.ambiguities with
    | nil => exact hprogram
    | cons x xs => rfl
  case isFalse => exact hprogram

theorem inRange_of_build {b : Builder} {nodes : List Node} {a : Nfa}
    (ha : Nfa.build b.limits nodes = .ok a) : a.InRange ∧ a.size ≤ Ident.capacity := by
  have hsize := (Nfa.checkedBuild_spec b.limits nodes).2 a ha
  obtain ⟨rfl, -⟩ := Nfa.build_eq_ok ha
  exact ⟨Nfa.inRange_ofNodes nodes, hsize.trans (min_le_right _ _)⟩

theorem inRange_of_determinize {a : Nfa} {limit : Option ℕ} {d : Dfa}
    (hd : a.determinize limit = .ok d) : d.InRange ∧ d.size ≤ Ident.capacity :=
  ⟨Subset.inRange_of_determinize hd, (Nfa.size_determinize_le hd).trans (min_le_right _ _)⟩

theorem checkedOfNodes_eq (b : Builder) (nodes : List Node) :
    b.checkedOfNodes nodes = (b.ofNodes nodes).mapError .refused := by
  rw [checkedOfNodes, ofNodes, (Nfa.checkedBuild_spec b.limits nodes).1, mapError_refused]
  cases ha : Nfa.build b.limits nodes with
  | error e => rfl
  | ok a =>
    obtain ⟨hin, hsize⟩ := inRange_of_build ha
    rw [mapError_of_ok rfl, mapError_of_ok rfl, bind_of_ok rfl, bind_of_ok rfl,
      Nfa.checkedDeterminize_eq hin hsize, mapError_refused]
    cases hd : a.determinize b.options.stateLimitInForce with
    | error e => rfl
    | ok d =>
      obtain ⟨hin, hsize⟩ := inRange_of_determinize hd
      rw [mapError_of_ok rfl, mapError_of_ok rfl, bind_of_ok rfl, bind_of_ok rfl]
      exact b.checkedOfDfa_eq hin hsize

/-- Nothing is read or written outside of its array. By checked access, trees are made into the same
program or refused with the same error: the targets of transitions are states at every stage,
actions lead to states of the program, and splits to instructions of their tree. And by checked
access, matchers come through every list of proper calls. -/
theorem ofNodes_inBounds (b : Builder) (nodes : List Node) :
    b.checkedOfNodes nodes = (b.ofNodes nodes).mapError .refused ∧
      (∀ a, Nfa.build b.limits nodes = .ok a → a.InRange ∧
        ∀ d, a.determinize b.options.stateLimitInForce = .ok d → d.InRange ∧ d.reorder.InRange ∧
          d.checkedAmbiguities = .ok d.ambiguities) ∧
      ∀ p, b.ofNodes nodes = .ok p → p.InBounds ∧
        ∀ search : ByteSearch, search.Exact → ∀ calls, Session.Proper 1 calls →
          Session.initial.checkedRun search p calls = .ok (Session.initial.run p calls) := by
  refine ⟨b.checkedOfNodes_eq nodes, fun a ha => ⟨(inRange_of_build ha).1, fun d hd => ?_⟩,
    fun p hp => ?_⟩
  · have hin := (inRange_of_determinize hd).1
    exact ⟨hin, hin.reorder, Dfa.checkedAmbiguities_eq hin⟩
  · obtain ⟨-, d, hd, rfl⟩ := ofNodes_eq_ok hp
    have hbounds := Program.inBounds_ofDfa (inRange_of_determinize hd).1 b.options.accelerates
    exact ⟨hbounds, fun search hsearch calls hcalls =>
      (Session.inBounds_initial hbounds).checkedRun_eq hsearch hbounds
        (Program.asciiExits_ofDfa d _) hcalls⟩

/-- A copy of a matcher is fed what follows a character of two bytes. -/
theorem ofNodes_inBounds_letter :
    ∃ p, new.ofNodes [.text ['a']] = .ok p ∧ p.InBounds ∧
      Session.initial.checkedRun .linear p [.fork 0, .feed 1 "éa" 2 3 true, .finish 1] =
        .ok (Session.initial.run p [.fork 0, .feed 1 "éa" 2 3 true, .finish 1]) := by
  have hok : (new.ofNodes [.text ['a']]).toBool = true := by decide +kernel
  cases hp : new.ofNodes [.text ['a']] with
  | error e =>
    rw [hp] at hok
    cases hok
  | ok p =>
    obtain ⟨hbounds, hruns⟩ := (ofNodes_inBounds new [.text ['a']]).2.2 p hp
    have hstart : Offset.Boundary "éa".toList 2 := ⟨['é'], ['a'], by decide, by decide⟩
    have hstop : Offset.Boundary "éa".toList 3 := ⟨['é', 'a'], [], by decide, by decide⟩
    exact ⟨p, rfl, hbounds, hruns .linear ByteSearch.linear_exact _
      ⟨Nat.one_pos, ⟨Nat.one_lt_two, Nat.le_succ 2, hstart, hstop⟩, Nat.one_lt_two, trivial⟩⟩

end PatternAutomata.Builder
