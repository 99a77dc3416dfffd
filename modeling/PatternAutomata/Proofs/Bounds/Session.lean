import PatternAutomata.Proofs.Bounds.Generate
import PatternAutomata.Proofs.ByteSearch
import PatternAutomata.Proofs.History

/-!
Sessions by checked access. The actions of a program lead to states of it, so a matcher is always in
one; and then a call that asks for what there is comes through, and does what it does without
checks.
-/

set_option autoImplicit false

namespace PatternAutomata

open Fault (read)

def Program.checkedAccess (search : ByteSearch) (p : Program) : Program.Access where
  bytesToExit id bytes := do (← read p.states id).bytesToExit search bytes
  act id point := do (← read p.states id).decision.checkedLookup point
  isTerminal id := do return (← read p.states id).isTerminal

namespace Matcher

def checkedFeed (search : ByteSearch) (p : Program) (m : Matcher) (text : String)
    (start stop : ℕ) (stopReluctantly : Bool) : Except Fault Matcher :=
  m.feedBy (p.checkedAccess search) text start stop stopReluctantly

def checkedFinish (p : Program) (m : Matcher) : Except Fault Matcher := do
  match m.state with
  | none => return m
  | some id =>
    let code ← read p.states id
    match ← code.decision.checkedLookup Point.endOfInput with
    | .fail => return { m with state := none }
    | .goto next update _ => return { m with state := some next, domain := update.apply m.domain }

def InBounds (p : Program) (m : Matcher) : Prop := ∀ id, m.state = some id → id < p.size

end Matcher

namespace Session

def checkedCall (search : ByteSearch) (p : Program) (s : Session) :
    Call → Except Fault (Session × Matcher)
  | .feed m text start stop stopReluctantly => do
    let x ← (← s.find m).checkedFeed search p text start stop stopReluctantly
    return (s.replace m x, x)
  | .finish m => do
    let x ← (← s.find m).checkedFinish p
    return (s.replace m x, x)
  | .restart m => s.call p (.restart m)
  | .fork m => s.call p (.fork m)
  | .begin => s.call p .begin

def checkedRun (search : ByteSearch) (p : Program) (s : Session) (calls : List Call) :
    Except Fault Session :=
  calls.foldlM (fun s c => return (← s.checkedCall search p c).1) s

/-- A call on one of `count` matchers that feeds nothing but whole characters of a text. -/
def Call.Proper (count : ℕ) : Call → Prop
  | .feed m text start stop _ =>
    m < count ∧ start ≤ stop ∧ Offset.Boundary text.toList start ∧ Offset.Boundary text.toList stop
  | .finish m | .restart m | .fork m => m < count
  | .begin => True

def Call.made : Call → ℕ
  | .fork _ | .begin => 1
  | _ => 0

/-- Each call of a list is proper at its time, if there are `count` matchers to begin with. -/
def Proper : (count : ℕ) → List Call → Prop
  | _, [] => True
  | count, c :: calls => c.Proper count ∧ Proper (count + c.made) calls

def InBounds (p : Program) (s : Session) : Prop := ∀ x ∈ s.matchers, Matcher.InBounds p x

end Session

/-! ### Single matchers -/

section

variable {p : Program} (hp : p.InBounds)

include hp

theorem Program.InBounds.act_lt {id : ℕ} {point : ℤ} {next : ℕ} {update : DomainUpdate}
    {reluctant : Bool} (h : p.act id point = .goto next update reluctant) : next < p.size := by
  rw [Program.act] at h
  cases hs : p.states[id]? with
  | none =>
    rw [hs] at h
    cases h
  | some s =>
    rw [hs] at h
    exact (hp.decision id s hs).next_lt h

theorem Program.InBounds.checkedLookup_eq {id : ℕ} {s : StateCode} (hs : p.states[id]? = some s)
    (point : ℤ) : s.decision.checkedLookup point = .ok (p.act id point) := by
  rw [(hp.decision id s hs).checkedLookup_eq, Program.act, hs]

theorem Program.InBounds.checkedAccess_eq (search : ByteSearch) {id : ℕ} {s : StateCode}
    (hs : p.states[id]? = some s) :
    (p.checkedAccess search).bytesToExit id = (p.access search).bytesToExit id ∧
      (p.checkedAccess search).act id = (p.access search).act id ∧
      (p.checkedAccess search).isTerminal id = (p.access search).isTerminal id := by
  have hread := Fault.read_eq_ok.2 hs
  dsimp only [Program.checkedAccess, Program.access]
  refine ⟨funext fun bytes => ?_, funext fun point => ?_, ?_⟩
  · rw [bind_of_ok hread, hs]
  · rw [bind_of_ok hread, hp.checkedLookup_eq hs]
  · rw [bind_of_ok hread, Program.isTerminal, hs]
    rfl

namespace Matcher

omit hp in
theorem inBounds_of_lt {id : ℕ} (hid : id < p.size) (domain : Option ℕ) (offset : ℕ) :
    (⟨some id, domain, offset⟩ : Matcher).InBounds p := by
  intro q hq
  cases hq
  exact hid

omit hp in
theorem inBounds_of_failed (domain : Option ℕ) (offset : ℕ) :
    (⟨none, domain, offset⟩ : Matcher).InBounds p := by
  intro q hq
  cases hq

theorem consume_inBounds (stopReluctantly : Bool) {id : ℕ} (hid : id < p.size) (domain : Option ℕ)
    (offset : ℕ) (cs : List Char) :
    (consume p stopReluctantly id domain offset cs).InBounds p := by
  induction cs generalizing id domain offset with
  | nil => exact inBounds_of_lt hid domain offset
  | cons c cs ih =>
    rw [consume]
    split
    case isTrue => exact ih hid domain _
    case isFalse =>
      cases hact : p.act id (Point.ofChar c) with
      | fail => exact inBounds_of_failed domain offset
      | goto next update reluctant =>
        dsimp only
        split
        case isTrue => exact inBounds_of_lt hid domain offset
        case isFalse => exact ih (hp.act_lt hact) _ _

theorem consumeBy_checkedAccess (search : ByteSearch) (stopReluctantly : Bool) {id : ℕ}
    (hid : id < p.size) (domain : Option ℕ) (offset : ℕ) (cs : List Char) :
    consumeBy (p.checkedAccess search) stopReluctantly id domain offset cs =
      consumeBy (p.access search) stopReluctantly id domain offset cs := by
  induction hn : cs.length using Nat.strong_induction_on generalizing id domain offset cs with
  | h n ih =>
    obtain ⟨s, hs⟩ : ∃ s, p.states[id]? = some s := ⟨_, Array.getElem?_eq_getElem hid⟩
    obtain ⟨hbytes, hact, hterminal⟩ := hp.checkedAccess_eq search hs
    rw [consumeBy, consumeBy, hbytes, hact, hterminal]
    refine congrArg _ (funext fun bytes => ?_)
    split
    case h_1 => rfl
    case h_2 => rfl
    case h_3 skipped c rest hcut =>
      have hlt : rest.length < n := by
        rw [← hn, (Offset.cut?_eq_some hcut).1, List.length_append, List.length_cons]
        omega
      dsimp only [Program.access]
      rw [bind_of_ok rfl, bind_of_ok rfl]
      cases h : p.act id (Point.ofChar c) with
      | fail => rfl
      | goto next update reluctant =>
        dsimp only
        rw [bind_of_ok rfl, bind_of_ok rfl]
        split
        case isTrue => rfl
        case isFalse => exact ih rest.length hlt (hp.act_lt h) _ _ rest rfl

theorem checkedFeed_eq {search : ByteSearch} (hsearch : search.Exact) (hascii : p.AsciiExits)
    {m : Matcher} (hm : m.InBounds p) (text : String) (start stop : ℕ) (stopReluctantly : Bool) :
    m.checkedFeed search p text start stop stopReluctantly =
      m.feed p text start stop stopReluctantly := by
  rw [← feedBySearch_eq hsearch hascii, checkedFeed, feedBySearch, feedBy, feedBy]
  cases slice text.toList start stop with
  | error e => rfl
  | ok piece =>
    cases hstate : m.state with
    | none => rfl
    | some id => exact consumeBy_checkedAccess hp search stopReluctantly (hm id hstate) _ _ _

theorem checkedFinish_eq {m : Matcher} (hm : m.InBounds p) :
    m.checkedFinish p = .ok (m.finish p) := by
  rw [checkedFinish, finish]
  cases hstate : m.state with
  | none => rfl
  | some id =>
    obtain ⟨s, hs⟩ : ∃ s, p.states[id]? = some s := ⟨_, Array.getElem?_eq_getElem (hm id hstate)⟩
    dsimp only
    rw [bind_of_ok (Fault.read_eq_ok.2 hs), bind_of_ok (hp.checkedLookup_eq hs _)]
    cases p.act id Point.endOfInput <;> rfl

theorem feed_inBounds {m x : Matcher} (hm : m.InBounds p) {text : String} {start stop : ℕ}
    {stopReluctantly : Bool} (hx : m.feed p text start stop stopReluctantly = .ok x) :
    x.InBounds p := by
  rw [feed] at hx
  cases hpiece : slice text.toList start stop with
  | error e =>
    rw [hpiece] at hx
    cases hx
  | ok piece =>
    rw [hpiece] at hx
    obtain rfl : m.feedChars p start piece stopReluctantly = x := Except.ok.inj hx
    cases hstate : m.state with
    | none =>
      rw [feedChars, hstate]
      exact inBounds_of_failed _ _
    | some id =>
      rw [feedChars, hstate]
      exact consume_inBounds hp _ (hm id hstate) _ _ _

theorem finish_inBounds {m : Matcher} (hm : m.InBounds p) : (m.finish p).InBounds p := by
  rw [finish]
  cases hstate : m.state with
  | none => exact hm
  | some id =>
    dsimp only
    cases hact : p.act id Point.endOfInput with
    | fail => exact inBounds_of_failed _ _
    | goto next update reluctant => exact inBounds_of_lt (hp.act_lt hact) _ _

end Matcher

end

/-! ### Sessions -/

namespace Session

theorem find_of_lt {s : Session} {m : ℕ} (hm : m < s.matchers.length) :
    s.find m = .ok s.matchers[m] := by
  rw [find, get?, List.getElem?_eq_getElem hm]

theorem inBounds_initial {p : Program} (hp : p.InBounds) : initial.InBounds p := by
  intro x hx
  obtain rfl := List.mem_singleton.1 hx
  exact Matcher.inBounds_of_lt hp.start none 0

section

variable {p : Program} {s : Session} {x : Matcher} (hs : s.InBounds p)

include hs

theorem InBounds.find {m : ℕ} (h : s.find m = .ok x) : x.InBounds p :=
  hs x (List.mem_of_getElem? (find_eq_ok h))

theorem InBounds.replace (hx : x.InBounds p) (m : ℕ) : (s.replace m x).InBounds p := by
  intro y hy
  rcases List.mem_or_eq_of_mem_set hy with hy | rfl
  · exact hs y hy
  · exact hx

theorem InBounds.append (hx : x.InBounds p) : (s.append x).InBounds p := by
  intro y hy
  rcases List.mem_append.1 hy with hy | hy
  · exact hs y hy
  · rwa [List.mem_singleton.1 hy]

variable (hp : p.InBounds)

include hp

theorem InBounds.call {c : Call} {t : Session} (hc : s.call p c = .ok (t, x)) : t.InBounds p := by
  cases c with
  | feed m text start stop stopReluctantly =>
    obtain ⟨y, hy, hc⟩ := ok_of_bind hc
    obtain ⟨z, hz, hc⟩ := ok_of_bind hc
    cases hc
    exact hs.replace (Matcher.feed_inBounds hp (hs.find hy) hz) m
  | finish m =>
    obtain ⟨y, hy, hc⟩ := ok_of_bind hc
    cases hc
    exact hs.replace (Matcher.finish_inBounds hp (hs.find hy)) m
  | restart m =>
    obtain ⟨y, hy, hc⟩ := ok_of_bind hc
    cases hc
    exact hs.replace (Matcher.inBounds_of_lt hp.start _ _) m
  | fork m =>
    obtain ⟨y, hy, hc⟩ := ok_of_bind hc
    cases hc
    exact hs.append (hs.find hy)
  | begin =>
    cases hc
    exact hs.append (Matcher.inBounds_of_lt hp.start _ _)

/-- Whatever is called, answered or not, all matchers stay in states of the program. -/
theorem InBounds.run (calls : List Call) : (s.run p calls).InBounds p := by
  induction calls generalizing s with
  | nil => exact hs
  | cons c calls ih =>
    rw [Session.run, List.foldl_cons]
    refine ih ?_
    cases hc : s.call p c with
    | error e => exact hs
    | ok r => exact hs.call hp hc

theorem InBounds.checkedCall_eq {search : ByteSearch} (hsearch : search.Exact)
    (hascii : p.AsciiExits) (c : Call) : s.checkedCall search p c = s.call p c := by
  cases c with
  | feed m text start stop stopReluctantly =>
    rw [checkedCall, Session.call]
    cases hx : s.find m with
    | error e => rfl
    | ok x =>
      have h := Matcher.checkedFeed_eq hp hsearch hascii (hs.find hx) text start stop
        stopReluctantly
      rw [bind_of_ok rfl, bind_of_ok rfl, h]
  | finish m =>
    rw [checkedCall, Session.call]
    cases hx : s.find m with
    | error e => rfl
    | ok x =>
      rw [bind_of_ok rfl, bind_of_ok rfl, bind_of_ok (Matcher.checkedFinish_eq hp (hs.find hx))]
  | restart m => rfl
  | fork m => rfl
  | begin => rfl

end

theorem call_of_proper (p : Program) {s : Session} {c : Call} (h : c.Proper s.matchers.length) :
    ∃ t x, s.call p c = .ok (t, x) ∧ t.matchers.length = s.matchers.length + c.made := by
  cases c with
  | feed m text start stop stopReluctantly =>
    obtain ⟨hm, hle, hstart, hstop⟩ := h
    obtain ⟨piece, hpiece⟩ := hstart.between hstop hle
    rw [Session.call, bind_of_ok (find_of_lt hm), Matcher.feed, Matcher.slice_eq_ok hpiece]
    exact ⟨_, _, rfl, List.length_set⟩
  | finish m =>
    rw [Session.call, bind_of_ok (find_of_lt h)]
    exact ⟨_, _, rfl, List.length_set⟩
  | restart m =>
    rw [Session.call, bind_of_ok (find_of_lt h)]
    exact ⟨_, _, rfl, List.length_set⟩
  | fork m =>
    rw [Session.call, bind_of_ok (find_of_lt h)]
    exact ⟨_, _, rfl, List.length_append⟩
  | begin => exact ⟨_, _, rfl, List.length_append⟩

/-- A list of proper calls runs to its end by checked access. -/
theorem InBounds.checkedRun_eq {search : ByteSearch} (hsearch : search.Exact) {p : Program}
    (hp : p.InBounds) (hascii : p.AsciiExits) {s : Session} (hs : s.InBounds p)
    {calls : List Call} (h : Proper s.matchers.length calls) :
    s.checkedRun search p calls = .ok (s.run p calls) := by
  induction calls generalizing s with
  | nil => rfl
  | cons c calls ih =>
    obtain ⟨hc, hcalls⟩ := h
    obtain ⟨t, x, hcall, hlength⟩ := call_of_proper p hc
    rw [← hlength] at hcalls
    have hchecked :
        (do return (← s.checkedCall search p c).1) = (.ok t : Except Fault Session) := by
      rw [hs.checkedCall_eq hp hsearch hascii, hcall]
      rfl
    rw [checkedRun, List.foldlM_cons, bind_of_ok hchecked, Session.run, List.foldl_cons, hcall]
    exact ih (hs.call hp hcall) hcalls

end Session

end PatternAutomata
