import PatternAutomata.Proofs.Matcher
import PatternAutomata.Proofs.Subset
import Mathlib.Data.List.Induction

/-!
Sessions with a record of what each matcher has consumed. The record is kept beside the session and
never looked at by it; it is what the state and the pattern reported are compared with.
-/

set_option autoImplicit false

namespace PatternAutomata

open Dfa (InRange)

/-- What a matcher has consumed since it was made or last restarted, and whether it has met a point
without a transition. -/
structure Record where
  consumed : List ℤ
  refused : Bool

namespace Record

def new : Record := ⟨[], false⟩

def refuses (d : Dfa) (w : List ℤ) (p : ℤ) : Bool := (d.run? Dfa.start (w ++ [p])).isNone

/-- The record after a feed of `piece` that left the offset at `index`: the characters before that
are consumed, and the next one is refused if there is no transition on it. -/
def feedPiece (d : Dfa) (r : Record) (piece : List Char) (start index : ℕ) : Record :=
  match Offset.cut? (index - start) piece with
  | some (taken, left) =>
    let w := r.consumed ++ taken.map Point.ofChar
    ⟨w, r.refused || left.head?.any fun c => refuses d w (Point.ofChar c)⟩
  | none => r

def feed (d : Dfa) (r : Record) (text : String) (start stop index : ℕ) : Record :=
  match Matcher.slice text.toList start stop with
  | .ok piece => r.feedPiece d piece start index
  | .error _ => r

def finish (d : Dfa) (r : Record) : Record :=
  if r.refused || refuses d r.consumed Point.endOfInput then { r with refused := true }
  else ⟨r.consumed ++ [Point.endOfInput], false⟩

end Record

namespace Session

def record (d : Dfa) (rs : List Record) (x : Matcher) : Call → List Record
  | .feed m text start stop _ => rs.modify m fun r => r.feed d text start stop x.index
  | .finish m => rs.modify m (Record.finish d)
  | .restart m => rs.modify m fun _ => .new
  | .fork m => rs ++ rs[m]?.toList
  | .begin => rs ++ [.new]

def trackCall (d : Dfa) (p : Program) (s : Session × List Record) (c : Call) :
    Session × List Record :=
  match s.1.call p c with
  | .ok (t, x) => (t, record d s.2 x c)
  | .error _ => s

def track (d : Dfa) (p : Program) (calls : List Call) : Session × List Record :=
  calls.foldl (trackCall d p) (initial, [.new])

theorem track_fst (d : Dfa) (p : Program) (calls : List Call) :
    (track d p calls).1 = initial.run p calls := by
  rw [track, run]
  refine (List.foldl_hom Prod.fst fun s c => ?_).symm
  rw [trackCall]
  cases s.1.call p c with
  | ok _ => rfl
  | error _ => rfl

theorem track_append (d : Dfa) (p : Program) (calls : List Call) (c : Call) :
    track d p (calls ++ [c]) = trackCall d p (track d p calls) c := List.foldl_concat ..

def Follows (d : Dfa) (x : Matcher) (r : Record) : Prop :=
  ∃ q, Matcher.Located d r.consumed q x.domain ∧
    x.state = if r.refused then none else some (d.rank q)

section

variable {d : Dfa} (hd : InRange d) {accelerate : Bool} {x y : Matcher} {r : Record}

theorem refuses_iff {w : List ℤ} {q : ℕ} {domain : Option ℕ} (h : Matcher.Located d w q domain)
    (p : ℤ) : Record.refuses d w p = (d.transition? q p).isNone := by
  rw [Record.refuses, h.run?_append, Option.isNone_map]

theorem Follows.feed_refused {p : Program} (h : Follows d x r) (hr : r.refused = true)
    {text : String} {start stop : ℕ} {stopReluctantly : Bool}
    (hy : x.feed p text start stop stopReluctantly = .ok y) :
    r.feed d text start stop y.index = r ∧ y.state = x.state ∧ y.domain = x.domain := by
  obtain ⟨q, -, hstate⟩ := h
  rw [if_pos hr] at hstate
  rw [Matcher.feed] at hy
  rw [Record.feed]
  cases hslice : Matcher.slice text.toList start stop with
  | error e =>
    rw [hslice] at hy
    cases hy
  | ok piece =>
    rw [hslice] at hy
    cases hy
    have hcut : Offset.cut? 0 piece = some ([], piece) := Offset.cut?_append [] piece
    simp only [Matcher.feedChars, hstate, Record.feedPiece, Nat.sub_self, hcut, List.map_nil,
      List.append_nil, hr, Bool.true_or, and_true]
    rw [← hr]

include hd

theorem Follows.feed (h : Follows d x r) {text : String} {start stop : ℕ} {stopReluctantly : Bool}
    (hy : x.feed (.ofDfa d accelerate) text start stop stopReluctantly = .ok y) :
    Follows d y (r.feed d text start stop y.index) := by
  cases hr : r.refused with
  | true =>
    obtain ⟨h1, h2, h3⟩ := h.feed_refused hr hy
    rw [h1, Follows, h2, h3]
    exact h
  | false =>
    obtain ⟨q, hloc, hstate⟩ := h
    rw [hr] at hstate
    rw [Matcher.feed] at hy
    rw [Record.feed]
    cases hslice : Matcher.slice text.toList start stop with
    | error e =>
      rw [hslice] at hy
      cases hy
    | ok piece =>
      rw [hslice] at hy
      have hm : x.feedChars (.ofDfa d accelerate) start piece stopReluctantly = y :=
        Except.ok.inj hy
      rw [Matcher.feedChars, hstate] at hm
      obtain ⟨taken, left, q', rfl, hindex, hloc', hhalt⟩ :=
        Matcher.consume_spec hd accelerate stopReluctantly hloc hm
      simp only [Record.feedPiece]
      rw [hindex, Nat.add_sub_cancel_left, Offset.cut?_append]
      refine ⟨q', hloc', ?_⟩
      simp only [hr, Bool.false_or]
      generalize y.state = state at hhalt ⊢
      cases hhalt with
      | done => rfl
      | stopped _ ht _ _ =>
        simp only [List.head?_cons, Option.any_some, refuses_iff hloc', ht, Option.isNone_some]
        rfl
      | failed ht =>
        simp only [List.head?_cons, Option.any_some, refuses_iff hloc', ht, Option.isNone_none]
        rfl

theorem Follows.finish (h : Follows d x r) :
    Follows d (x.finish (.ofDfa d accelerate)) (r.finish d) := by
  obtain ⟨q, hloc, hstate⟩ := h
  rw [Record.finish]
  cases hr : r.refused with
  | true =>
    rw [hr] at hstate
    rw [Matcher.finish, hstate]
    exact ⟨q, hloc, hstate⟩
  | false =>
    rw [hr] at hstate
    rw [Bool.false_or, refuses_iff hloc]
    rcases Matcher.finish_spec hd accelerate hloc hstate with ⟨q', hloc', hstate'⟩ | ⟨ht, hfail⟩
    · have hrun := hloc'.run
      rw [hloc.run?_append] at hrun
      obtain ⟨t, ht, -⟩ := Option.map_eq_some_iff.1 hrun
      rw [ht]
      exact ⟨q', hloc', hstate'⟩
    · rw [ht, hfail]
      exact ⟨q, hloc, rfl⟩

theorem follows_start (hx : x.state = some Program.start) (hdomain : x.domain = none) :
    Follows d x .new := by
  refine ⟨Dfa.start, ?_, ?_⟩
  · rw [hdomain]
    exact Matcher.located_nil hd
  · rw [hx, Dfa.rank_start hd.start]
    rfl

end

structure Agree (d : Dfa) (s : Session) (rs : List Record) : Prop where
  length : s.matchers.length = rs.length
  follows : ∀ m x r, s.get? m = some x → rs[m]? = some r → Follows d x r

section

variable {d : Dfa} {s : Session} {rs : List Record} {m : ℕ} {x : Matcher}

theorem Agree.replace (h : Agree d s rs) {f : Record → Record}
    (hx : ∀ r, rs[m]? = some r → Follows d x (f r)) : Agree d (s.replace m x) (rs.modify m f) where
  length := by
    rw [Session.replace, List.length_set, List.length_modify, h.length]
  follows m' y r hy hr := by
    rw [get?, Session.replace] at hy
    by_cases hm : m = m'
    · subst hm
      rw [List.getElem?_modify_eq] at hr
      obtain ⟨r, hold, rfl⟩ := Option.map_eq_some_iff.1 hr
      rw [List.getElem?_set_self'] at hy
      obtain ⟨-, -, rfl⟩ := Option.map_eq_some_iff.1 hy
      exact hx r hold
    · rw [List.getElem?_modify_ne _ _ hm] at hr
      rw [List.getElem?_set_ne hm] at hy
      exact h.follows m' y r hy hr

theorem Agree.append (h : Agree d s rs) {r : Record} (hx : Follows d x r) :
    Agree d (s.append x) (rs ++ [r]) where
  length := by
    rw [Session.append, List.length_append, List.length_append, h.length]
    rfl
  follows m y r' hy hr := by
    rw [get?, Session.append] at hy
    by_cases hm : m < rs.length
    · rw [List.getElem?_append_left hm] at hr
      rw [List.getElem?_append_left (h.length ▸ hm)] at hy
      exact h.follows m y r' hy hr
    · rw [List.getElem?_append_right (Nat.le_of_not_lt hm)] at hr
      rw [List.getElem?_append_right (h.length ▸ Nat.le_of_not_lt hm), h.length] at hy
      rw [List.getElem?_singleton] at hr hy
      by_cases hlast : m - rs.length = 0
      · rw [if_pos hlast] at hr hy
        cases hr
        cases hy
        exact hx
      · rw [if_neg hlast] at hr
        cases hr

theorem find_eq_ok (h : s.find m = .ok x) : s.get? m = some x := by
  rw [find] at h
  split at h
  · cases h
    assumption
  · cases h

theorem Agree.call (hd : InRange d) {accelerate : Bool} (h : Agree d s rs) {c : Call} {t : Session}
    (hc : s.call (.ofDfa d accelerate) c = .ok (t, x)) : Agree d t (record d rs x c) := by
  cases c with
  | feed m text start stop stopReluctantly =>
    obtain ⟨y, hy, hc⟩ := ok_of_bind hc
    obtain ⟨z, hz, hc⟩ := ok_of_bind hc
    cases hc
    exact h.replace fun r hr => (h.follows m y r (find_eq_ok hy) hr).feed hd hz
  | finish m =>
    obtain ⟨y, hy, hc⟩ := ok_of_bind hc
    cases hc
    exact h.replace fun r hr => (h.follows m y r (find_eq_ok hy) hr).finish hd
  | restart m =>
    obtain ⟨y, hy, hc⟩ := ok_of_bind hc
    cases hc
    exact h.replace fun _ _ => follows_start hd rfl rfl
  | fork m =>
    obtain ⟨y, hy, hc⟩ := ok_of_bind hc
    cases hc
    have hget := find_eq_ok hy
    have hlt : m < rs.length := h.length ▸ (List.getElem?_eq_some_iff.1 hget).1
    have hr := List.getElem?_eq_getElem hlt
    rw [record, hr]
    exact h.append (h.follows m _ _ hget hr)
  | begin =>
    cases hc
    exact h.append (follows_start hd rfl rfl)

theorem agree_track (hd : InRange d) (accelerate : Bool) (calls : List Call) :
    Agree d (track d (.ofDfa d accelerate) calls).1 (track d (.ofDfa d accelerate) calls).2 := by
  induction calls using List.reverseRecOn with
  | nil =>
    refine ⟨rfl, fun m x r hx hr => ?_⟩
    cases m with
    | zero =>
      cases hx
      cases hr
      exact follows_start hd rfl rfl
    | succ m => cases hx
  | append_singleton calls c ih =>
    rw [track_append, trackCall]
    split
    case h_1 hc => exact ih.call hd hc
    case h_2 => exact ih

theorem getElem?_modify_of_eq {f : Record → Record} {r : Record} {m' : ℕ} (hr : rs[m]? = some r)
    (hf : m' = m → f r = r) : (rs.modify m' f)[m]? = some r := by
  by_cases hm : m' = m
  · have hfr := hf hm
    subst hm
    rw [List.getElem?_modify_eq, hr]
    exact congrArg some hfr
  · rw [List.getElem?_modify_ne _ _ hm, hr]

/-- A record that has met a point without a transition does not change until a restart. -/
theorem record_of_refused (h : Agree d s rs) {p : Program} {c : Call} {t : Session}
    (hc : s.call p c = .ok (t, x)) {r : Record} (hr : rs[m]? = some r) (hrefused : r.refused = true)
    (hrestart : c ≠ .restart m) : (record d rs x c)[m]? = some r := by
  have hlt : m < rs.length := (List.getElem?_eq_some_iff.1 hr).1
  cases c with
  | feed m' text start stop stopReluctantly =>
    obtain ⟨y, hy, hc⟩ := ok_of_bind hc
    obtain ⟨z, hz, hc⟩ := ok_of_bind hc
    cases hc
    refine getElem?_modify_of_eq hr fun hm => ?_
    subst hm
    exact ((h.follows m' y r (find_eq_ok hy) hr).feed_refused hrefused hz).1
  | finish m' =>
    refine getElem?_modify_of_eq hr fun _ => ?_
    rw [Record.finish, hrefused, Bool.true_or, if_pos rfl, ← hrefused]
  | restart m' => exact getElem?_modify_of_eq hr fun hm => absurd (hm ▸ rfl) hrestart
  | fork m' =>
    rw [record, List.getElem?_append_left hlt]
    exact hr
  | begin =>
    rw [record, List.getElem?_append_left hlt]
    exact hr

end

end Session

end PatternAutomata
