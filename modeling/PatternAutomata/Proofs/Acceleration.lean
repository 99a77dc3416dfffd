import PatternAutomata.Proofs.ByteSearch
import PatternAutomata.Proofs.History

/-!
Acceleration is not observed. A state that skips characters would loop on each of them without a
change, so programs with and without exits take the same course.
-/

set_option autoImplicit false

namespace PatternAutomata

open Dfa (InRange)

namespace Dfa

theorem ascii_of_asciiOf? {r : Span} {b : UInt8} (h : asciiOf? r = some b) : b ≤ 0x7F := by
  unfold asciiOf? at h
  simp only at h
  split at h
  case isFalse => cases h
  case isTrue hlen =>
    cases h
    rw [UInt8.le_iff_toNat_le, UInt8.toNat_ofNat']
    simp only [UInt8.toNat_ofNat]
    omega

theorem ascii_of_mem_exits {id : ℕ} {s : State} {b : UInt8} (h : b ∈ exits id s) : b ≤ 0x7F := by
  unfold exits at h
  simp only at h
  split at h
  case h_1 es hes =>
    split at h
    case isTrue =>
      obtain ⟨r, -, hr⟩ := List.mem_map.1 ((mapM_eq_some_iff.1 hes).symm ▸ List.mem_map_of_mem h)
      exact ascii_of_asciiOf? hr
    case isFalse => cases h
  case h_2 => cases h

end Dfa

theorem Program.asciiExits_ofDfa (d : Dfa) (accelerate : Bool) :
    (ofDfa d accelerate).AsciiExits := by
  intro id s hs b hb
  simp only [ofDfa, Array.getElem?_mapIdx] at hs
  obtain ⟨state, -, rfl⟩ := Option.map_eq_some_iff.1 hs
  cases accelerate with
  | false => cases hb
  | true => exact Dfa.ascii_of_mem_exits hb

section

variable {d : Dfa}

theorem Program.skips_ofDfa_false {q : ℕ} (hq : q < d.size) (c : Char) :
    (ofDfa d false).skips (d.rank q) c = false := by
  rw [skips, Dfa.getElem?_ofDfa false (Array.getElem?_eq_getElem hq)]
  rfl

variable (hd : InRange d)

include hd

namespace Matcher

/-- Where a program with exits skips, one without takes the loop, and that changes nothing. -/
theorem consume_accelerated (stopReluctantly : Bool) {w : List ℤ} {q offset : ℕ}
    {domain : Option ℕ} (h : Located d w q domain) (cs : List Char) :
    consume (.ofDfa d true) stopReluctantly (d.rank q) domain offset cs =
      consume (.ofDfa d false) stopReluctantly (d.rank q) domain offset cs := by
  induction cs generalizing w q domain offset with
  | nil => rfl
  | cons c cs ih =>
    have hs := Array.getElem?_eq_getElem h.lt
    have hact := fun accelerate => Dfa.act_ofDfa hd accelerate hs (Point.inDomain_ofChar c)
    rw [consume, consume, Program.skips_ofDfa_false h.lt, if_neg Bool.false_ne_true, hact, hact]
    by_cases hskip : (Program.ofDfa d true).skips (d.rank q) c = true
    · obtain ⟨h0, t, ht, htarget, hreluctant⟩ := Dfa.loops_of_skips hd hs hskip
      rw [if_pos hskip, ih (h.loop hd h0 ht htarget), ht]
      simp [Dfa.image, hreluctant, htarget, h.reports.update_self h0]
    · rw [if_neg hskip]
      cases ht : d.transition? q (Point.ofChar c) with
      | none => rfl
      | some t =>
        simp only [Option.map_some, Option.getD_some, Dfa.image, Dfa.isTerminal_ofDfa _ hs,
          ih (h.step hd ht)]

end Matcher

namespace Session

omit hd in
theorem call_feed (p : Program) (s : Session) (m : ℕ) (text : String) (start stop : ℕ)
    (stopReluctantly : Bool) :
    s.call p (.feed m text start stop stopReluctantly) = (s.find m).bind fun x =>
      (x.feed p text start stop stopReluctantly).map fun y => (s.replace m y, y) := by
  rw [call]
  cases hx : s.find m with
  | error e => rfl
  | ok x =>
    cases hy : x.feed p text start stop stopReluctantly with
    | error e => simp [bind, Except.bind, Except.map, hy]
    | ok y => simp [bind, Except.bind, Except.map, hy]; rfl

omit hd in
theorem call_finish (p : Program) (s : Session) (m : ℕ) :
    s.call p (.finish m) =
      (s.find m).map fun x => (s.replace m (x.finish p), x.finish p) := by
  rw [call]
  cases s.find m <;> rfl

theorem Follows.feed_accelerated {x : Matcher} {r : Record} (h : Follows d x r) (text : String)
    (start stop : ℕ) (stopReluctantly : Bool) :
    x.feed (.ofDfa d true) text start stop stopReluctantly =
      x.feed (.ofDfa d false) text start stop stopReluctantly := by
  obtain ⟨q, hloc, hstate⟩ := h
  rw [Matcher.feed, Matcher.feed]
  congr 1
  funext piece
  cases hr : r.refused <;> rw [hr] at hstate <;>
    simp [Matcher.feedChars, hstate, Matcher.consume_accelerated hd stopReluctantly hloc]

theorem Follows.finish_accelerated {x : Matcher} {r : Record} (h : Follows d x r) :
    x.finish (.ofDfa d true) = x.finish (.ofDfa d false) := by
  obtain ⟨q, hloc, hstate⟩ := h
  have hs := Array.getElem?_eq_getElem hloc.lt
  have hact := fun accelerate => Dfa.act_ofDfa hd accelerate hs Point.inDomain_endOfInput
  cases hr : r.refused <;> rw [hr] at hstate <;> simp [Matcher.finish, hstate, hact]

theorem Agree.call_accelerated {s : Session} {rs : List Record} (h : Agree d s rs) (c : Call) :
    s.call (.ofDfa d true) c = s.call (.ofDfa d false) c := by
  have hfollows : ∀ {m x}, s.find m = .ok x → ∃ r, Follows d x r := by
    intro m x hx
    have hx := find_eq_ok hx
    have hlt : m < rs.length := h.length ▸ (List.getElem?_eq_some_iff.1 hx).1
    exact ⟨_, h.follows m x _ hx (List.getElem?_eq_getElem hlt)⟩
  cases c with
  | feed m text start stop stopReluctantly =>
    rw [call_feed, call_feed]
    cases hx : s.find m with
    | error e => simp only [Except.bind]
    | ok x =>
      obtain ⟨r, hr⟩ := hfollows hx
      simp only [Except.bind, hr.feed_accelerated hd]
  | finish m =>
    rw [call_finish, call_finish]
    cases hx : s.find m with
    | error e => simp only [Except.map]
    | ok x =>
      obtain ⟨r, hr⟩ := hfollows hx
      simp only [Except.map, hr.finish_accelerated hd]
  | restart m => simp only [Session.call]
  | fork m => simp only [Session.call]
  | begin => simp only [Session.call]

end Session

end

namespace Session

theorem call_accelerated {d : Dfa} (hd : InRange d) (calls : List Call) (c : Call) :
    (initial.run (.ofDfa d true) calls).call (.ofDfa d true) c =
      (initial.run (.ofDfa d true) calls).call (.ofDfa d false) c := by
  have hagree := agree_track hd true calls
  rw [track_fst] at hagree
  exact hagree.call_accelerated hd c

/-- A session runs the same with exits and without, call by call; and where a program has exits, a
search of the bytes of a text for them leads to where skipping its characters does. -/
theorem run_accelerated {a : Nfa} {limit : Option ℕ} {d : Dfa} (h : a.determinize limit = .ok d)
    (calls : List Call) :
    initial.run (.ofDfa d true) calls = initial.run (.ofDfa d false) calls ∧
    (∀ c, (initial.run (.ofDfa d true) calls).call (.ofDfa d true) c =
      (initial.run (.ofDfa d false) calls).call (.ofDfa d false) c) ∧
    ∀ search : ByteSearch, search.Exact → ∀ stopReluctantly id domain offset cs,
      Matcher.consumeBySearch search (.ofDfa d true) stopReluctantly id domain offset cs =
        .ok (Matcher.consume (.ofDfa d true) stopReluctantly id domain offset cs) := by
  have hd := Subset.inRange_of_determinize h
  have hrun : initial.run (.ofDfa d true) calls = initial.run (.ofDfa d false) calls := by
    induction calls using List.reverseRecOn with
    | nil => rfl
    | append_singleton calls c ih =>
      rw [run_append, run_append, ← ih]
      have hcall := call_accelerated hd calls c
      generalize initial.run (.ofDfa d true) calls = s at hcall ⊢
      rw [run, run, List.foldl_cons, List.foldl_cons, hcall]
      rfl
  refine ⟨hrun, fun c => ?_, fun search hsearch =>
    Matcher.consumeBySearch_eq hsearch (Program.asciiExits_ofDfa d true)⟩
  rw [call_accelerated hd calls c, hrun]

/-- A state that loops on all but a slash skips a character of two bytes. -/
theorem run_accelerated_slash :
    ∃ d, (Nfa.ofNodes [.concat [.text ['a'], .zeroOrMore (.set (PointSet.single '/').complement)]]
      ).determinize (some 9) = .ok d ∧ (Program.ofDfa d true).skipping = 1 ∧
      initial.run (.ofDfa d true) [.feed 0 "aé/b" 0 5 false] =
        initial.run (.ofDfa d false) [.feed 0 "aé/b" 0 5 false] ∧
      ((initial.run (.ofDfa d true) [.feed 0 "aé/b" 0 5 false]).get? 0).map Matcher.index =
        some 3 ∧
      Matcher.consumeBySearch .linear (.ofDfa d true) false 1 (some 0) 1 ['é', '/', 'b'] =
        .ok ⟨none, some 0, 3⟩ := by
  have hrun : ((Nfa.ofNodes [.concat [.text ['a'],
      .zeroOrMore (.set (PointSet.single '/').complement)]]).determinize (some 9)).map
      (fun d => ((Program.ofDfa d true).skipping,
        ((initial.run (.ofDfa d true) [.feed 0 "aé/b" 0 5 false]).get? 0).map Matcher.index,
        Matcher.consume (.ofDfa d true) false 1 (some 0) 1 ['é', '/', 'b'])) =
      .ok (1, some 3, ⟨none, some 0, 3⟩) := by
    decide +kernel
  cases hd : (Nfa.ofNodes [.concat [.text ['a'],
      .zeroOrMore (.set (PointSet.single '/').complement)]]).determinize (some 9) with
  | error e =>
    rw [hd] at hrun
    cases hrun
  | ok d =>
    rw [hd] at hrun
    simp only [Except.map, Except.ok.injEq, Prod.mk.injEq] at hrun
    obtain ⟨hskipping, hindex, hconsume⟩ := hrun
    obtain ⟨hsame, -, hsearch⟩ := run_accelerated hd [.feed 0 "aé/b" 0 5 false]
    refine ⟨d, rfl, hskipping, hsame, hindex, ?_⟩
    rw [hsearch .linear ByteSearch.linear_exact, hconsume]

end Session

end PatternAutomata
