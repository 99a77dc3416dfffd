import PatternAutomata.Builder
import PatternAutomata.Proofs.Drafting
import Mathlib.Data.List.Induction

/-!
Builders that are used again and again. Such a builder keeps its options and the array in which it
makes states, where a build that failed may have left some. What a build comes to depends on nothing
but the value that each option was given last.
-/

set_option autoImplicit false

namespace PatternAutomata

inductive Source
  | pattern (p : String)
  | patterns (ps : List String)
  | nodes (ns : List Node)
  | regexes (rs : List Regex)

namespace Builder

def build (b : Builder) : Source → Except BuildError Program
  | .pattern p => b.ofPatterns [p]
  | .patterns ps => b.ofPatterns ps
  | .nodes ns => b.ofNodes ns
  | .regexes rs => b.ofRegexes rs

namespace Setting

def asOptions : Setting → Options
  | .options o => o
  | _ => .unset

def asLimits : Setting → Nfa.Limits
  | .limits l => l
  | _ => .unset

def nestLimit? : Setting → Option ℕ
  | .nestLimit limit => some limit
  | _ => none

end Setting

end Builder

/-- A builder with the array in which it makes states. -/
structure Workshop where
  builder : Builder
  arena : Array Nfa.State

namespace Workshop

def new : Workshop := ⟨.new, #[]⟩

def ofNodes (w : Workshop) (nodes : List Node) : Except (Failure BuildError) Program × Workshop :=
  let (drafted, arena) := (Nfa.draftBuild w.builder.limits nodes).run.run w.arena
  (do
    let a ← drafted.mapError (.map .nfa)
    let d ← (a.determinize w.builder.options.stateLimitInForce).mapError fun e => .refused (.dfa e)
    (w.builder.ofDfa d).mapError .refused,
  { w with arena := arena })

/-- A pattern that is malformed ends a build before a state is made. -/
def ofPatterns (w : Workshop) (patterns : List String) :
    Except (Failure BuildError) Program × Workshop :=
  match patterns.mapM (Parser.parse w.builder.nestLimit) with
  | .error e => (.error (.refused (.malformed e)), w)
  | .ok nodes => w.ofNodes nodes

def ofRegexes (w : Workshop) (regexes : List Regex) :
    Except (Failure BuildError) Program × Workshop :=
  match Regex.toNodes regexes with
  | .error e => (.error (.refused (.unsupported e)), w)
  | .ok nodes => w.ofNodes nodes

def build (w : Workshop) : Source → Except (Failure BuildError) Program × Workshop
  | .pattern p => w.ofPatterns [p]
  | .patterns ps => w.ofPatterns ps
  | .nodes ns => w.ofNodes ns
  | .regexes rs => w.ofRegexes rs

inductive Call
  | configure (s : Builder.Setting)
  | build (source : Source)

def Call.setting? : Call → Option Builder.Setting
  | .configure s => some s
  | .build _ => none

def call (w : Workshop) : Call → Workshop
  | .configure s => { w with builder := w.builder.configure s }
  | .build source => (w.build source).2

def run (w : Workshop) (calls : List Call) : Workshop := calls.foldl call w

/-! ### The value that was given last -/

/-- The last value that some calls give for an option. -/
def latest {α : Type} (f : Builder.Setting → Option α) (calls : List Call) : Option α :=
  ((calls.filterMap Call.setting?).filterMap f).getLast?

def latestOptions (calls : List Call) : Options :=
  ⟨latest (·.asOptions.stateLimit) calls, latest (·.asOptions.rejectAmbiguous) calls,
    latest (·.asOptions.accelerate) calls⟩

def latestLimits (calls : List Call) : Nfa.Limits :=
  ⟨latest (·.asLimits.patterns) calls, latest (·.asLimits.states) calls⟩

def latestNestLimit (calls : List Call) : ℕ :=
  (latest (·.nestLimit?) calls).getD Parser.defaultNestLimit

/-- Calls that give each option the value that it was given last, and do nothing else. -/
def latestCalls (calls : List Call) : List Call :=
  [.configure (.options (latestOptions calls)), .configure (.limits (latestLimits calls)),
    .configure (.nestLimit (latestNestLimit calls))]

section

variable {α : Type} (f : Builder.Setting → Option α) (calls : List Call)

theorem latest_configure (s : Builder.Setting) :
    latest f (calls ++ [.configure s]) = (f s).or (latest f calls) := by
  rw [latest, List.filterMap_append, List.filterMap_append, List.getLast?_append]
  change (([s].filterMap f).getLast?).or _ = _
  cases hs : f s <;> simp [hs, latest]

theorem latest_build (source : Source) :
    latest f (calls ++ [.build source]) = latest f calls := by
  rw [latest, List.filterMap_append]
  exact congrArg (fun settings => (settings.filterMap f).getLast?) (List.append_nil _)

end

theorem build_builder (w : Workshop) (source : Source) :
    (w.build source).2.builder = w.builder := by
  have hnodes : ∀ nodes, (w.ofNodes nodes).2.builder = w.builder := fun _ => rfl
  have hpatterns : ∀ ps, (w.ofPatterns ps).2.builder = w.builder := by
    intro ps
    rw [ofPatterns]
    split
    · rfl
    · exact hnodes _
  cases source with
  | pattern p => exact hpatterns [p]
  | patterns ps => exact hpatterns ps
  | nodes ns => exact hnodes ns
  | regexes rs =>
    rw [build, ofRegexes]
    split
    · rfl
    · exact hnodes _

/-- Trees come to the same, whatever is in the array. -/
theorem ofNodes_fst (w : Workshop) (nodes : List Node) :
    (w.ofNodes nodes).1 = (w.builder.ofNodes nodes).mapError .refused := by
  have hdrafted := Nfa.draftBuild_fst w.builder.limits nodes w.arena
  rw [ofNodes, Builder.ofNodes]
  generalize (Nfa.draftBuild w.builder.limits nodes).run.run w.arena = drafted at hdrafted
  obtain ⟨drafted, arena⟩ := drafted
  obtain rfl := hdrafted
  simp only [mapError_refused]
  cases Nfa.build w.builder.limits nodes with
  | error e => rfl
  | ok a =>
    simp only [Except.mapError, bind, Except.bind]
    cases a.determinize w.builder.options.stateLimitInForce <;> rfl

theorem ofPatterns_fst (w : Workshop) (patterns : List String) :
    (w.ofPatterns patterns).1 = (w.builder.ofPatterns patterns).mapError .refused := by
  rw [ofPatterns, Builder.ofPatterns]
  cases patterns.mapM (Parser.parse w.builder.nestLimit) with
  | error e => rfl
  | ok nodes => exact w.ofNodes_fst nodes

theorem build_fst (w : Workshop) (source : Source) :
    (w.build source).1 = (w.builder.build source).mapError .refused := by
  cases source with
  | pattern p => exact w.ofPatterns_fst [p]
  | patterns ps => exact w.ofPatterns_fst ps
  | nodes ns => exact w.ofNodes_fst ns
  | regexes rs =>
    rw [build, Builder.build, ofRegexes, Builder.ofRegexes]
    cases Regex.toNodes rs with
    | error e => rfl
    | ok nodes => exact w.ofNodes_fst nodes

theorem builder_run (calls : List Call) : (new.run calls).builder =
    ⟨latestOptions calls, latestLimits calls, latestNestLimit calls⟩ := by
  induction calls using List.reverseRecOn with
  | nil => rfl
  | append_singleton calls c ih =>
    rw [run, List.foldl_append, ← run]
    cases c with
    | build source =>
      change ((new.run calls).build source).2.builder = _
      rw [build_builder, ih]
      simp only [latestOptions, latestLimits, latestNestLimit, latest_build]
    | configure s =>
      change (new.run calls).builder.configure s = _
      rw [ih]
      simp only [latestOptions, latestLimits, latestNestLimit, latest_configure]
      cases s <;> rfl

/-- The value that each option was given last makes the same builder. -/
theorem builder_run_latestCalls (calls : List Call) :
    (new.run (latestCalls calls)).builder = (new.run calls).builder := by
  rw [builder_run calls]
  simp only [latestCalls, run, List.foldl_cons, List.foldl_nil, call, Builder.configure, new,
    Builder.new, Options.overwrite, Options.unset, Nfa.Limits.overwrite, Nfa.Limits.unset,
    Option.or_none]

/-- A workshop remembers nothing but options. Whatever was called before, and however the builds
among these ended, the next build answers as it would in a new workshop where each option is given
the value that it was given last, which is what a builder with these options answers; and no state
that is left in the array gets into an automaton. -/
theorem build_remembers_options (calls : List Call) (source : Source) :
    ((new.run calls).build source).1 = ((new.run (latestCalls calls)).build source).1 ∧
      ((new.run calls).build source).1 =
        (Builder.build ⟨latestOptions calls, latestLimits calls, latestNestLimit calls⟩
          source).mapError .refused ∧
      ∀ limits nodes arena, ((Nfa.draftBuild limits nodes).run.run arena).1 =
        (Nfa.build limits nodes).mapError .refused := by
  refine ⟨?_, ?_, Nfa.draftBuild_fst⟩
  · rw [build_fst, build_fst, builder_run_latestCalls]
  · rw [build_fst, builder_run]

end Workshop

end PatternAutomata
