import PatternAutomata.PointSet.Edit
import PatternAutomata.Proofs.Bounds.Access
import PatternAutomata.Proofs.PointSet

/-!
Edits of a set of points, done to an array of its spans. Searches by halves find the spans that an
edit concerns, a window of the array, and a splice puts others in their place. However a set is
made, this comes to the spans that it has.
-/

set_option autoImplicit false

namespace PatternAutomata.PointSet

open Fault (read partitionPoint splice IsWindow)

/-! ### Arrays of spans -/

def containsBySearch (xs : Array Span) (p : ℤ) : Except Fault Bool := do
  let i ← partitionPoint (·.stop ≤ p) xs 0 xs.size
  if i < xs.size then return (← read xs i).start ≤ p else return false

def insertBySplice (xs : Array Span) (r : Span) : Except Fault (Array Span) := do
  if r.start = r.stop then return xs
  let lo ← partitionPoint (·.stop < r.start) xs 0 xs.size
  let hi ← partitionPoint (·.start ≤ r.stop) xs 0 xs.size
  if lo < hi then
    let first ← read xs lo
    let last ← read xs (hi - 1)
    splice xs lo hi [⟨min r.start first.start, max r.stop last.stop⟩]
  else splice xs lo hi [r]

def removeBySplice (xs : Array Span) (r : Span) : Except Fault (Array Span) := do
  if r.start = r.stop then return xs
  let lo ← partitionPoint (·.stop ≤ r.start) xs 0 xs.size
  let hi ← partitionPoint (·.start < r.stop) xs 0 xs.size
  if hi ≤ lo then return xs
  let first ← read xs lo
  let last ← read xs (hi - 1)
  splice xs lo hi ((if first.start < r.start then [⟨first.start, r.start⟩] else []) ++
    if r.stop < last.stop then [⟨r.stop, last.stop⟩] else [])

/-- What is left of the points from `cursor` to `stop` between some spans. -/
def gapsFrom (stop : ℤ) : (cursor : ℤ) → List Span → List Span
  | cursor, [] => if cursor < stop then [⟨cursor, stop⟩] else []
  | cursor, t :: ts =>
    (if cursor < t.start then [⟨cursor, t.start⟩] else []) ++ gapsFrom stop (max cursor t.stop) ts

def gaps (xs : Array Span) (r : Span) : Except Fault (List Span) := do
  let lo ← partitionPoint (·.stop ≤ r.start) xs 0 xs.size
  return gapsFrom r.stop r.start ((xs.toList.drop lo).takeWhile (·.start < r.stop))

def invertBySplice (xs : Array Span) (r : Span) : Except Fault (Array Span) := do
  if r.start = r.stop then return xs
  let missing ← gaps xs r
  let xs ← removeBySplice xs r
  missing.foldlM insertBySplice xs

def uniteBySplice (xs ys : Array Span) : Except Fault (Array Span) :=
  ys.toList.foldlM insertBySplice xs

/-- Goes through both arrays at once, past the span that ends first. -/
def intersectFrom (xs ys : Array Span) (i j : ℕ) (common : List Span) :
    Except Fault (List Span) :=
  if i < xs.size ∧ j < ys.size then do
    let a ← read xs i
    let b ← read ys j
    let common :=
      if max a.start b.start < min a.stop b.stop then common ++ [a.overlap b] else common
    if a.stop ≤ b.stop then intersectFrom xs ys (i + 1) j common
    else intersectFrom xs ys i (j + 1) common
  else return common
termination_by (xs.size - i) + (ys.size - j)

def settleBySplice (xs : Array Span) : Except Fault (Array Span) := do
  if (← containsBySearch xs (Span.surrogates.start - 1)) &&
      (← containsBySearch xs Span.surrogates.stop) then insertBySplice xs Span.surrogates
  else removeBySplice xs Span.surrogates

def Script.runBySplices : Script → Except Fault (Array Span)
  | empty => .ok #[]
  | add s start stop => do insertBySplice (← s.runBySplices) (← Span.make start stop)
  | remove s start stop => do removeBySplice (← s.runBySplices) (← Span.make start stop)
  | invert s start stop => do invertBySplice (← s.runBySplices) (← Span.make start stop)
  | unite s other => do uniteBySplice (← s.runBySplices) (← other.runBySplices)
  | intersect s other => do
    return (← intersectFrom (← s.runBySplices) (← other.runBySplices) 0 0 []).toArray
  | settleSurrogates s => do settleBySplice (← s.runBySplices)

/-! ### Windows -/

section

variable {s : PointSet} {r t : Span} {p : ℤ}

theorem pairwise_stops (s : PointSet) : s.spans.Pairwise fun r t => r.stop < t.stop := by
  refine s.separated.pairwise.imp_of_mem fun _ ht hlt => ?_
  exact hlt.trans (s.separated.bounds _ ht).2.1

theorem Separated.append_right {low : ℤ} {xs ys : List Span} (h : Separated low (xs ++ ys)) :
    Separated low ys := by
  induction xs generalizing low with
  | nil => exact h
  | cons x xs ih =>
    obtain ⟨h1, h2, -, h4⟩ := h
    exact (ih h4).mono (by omega)

theorem Separated.append_left {low : ℤ} {xs ys : List Span} (h : Separated low (xs ++ ys)) :
    Separated low xs := by
  induction xs generalizing low with
  | nil => trivial
  | cons x xs ih =>
    obtain ⟨h1, h2, h3, h4⟩ := h
    exact ⟨h1, h2, h3, ih h4⟩

theorem any_contains_eq_false {ts : List Span} (h : ∀ t ∈ ts, t.stop ≤ p ∨ p < t.start) :
    ts.any (·.contains p) = false := by
  refine List.any_eq_false.2 fun t ht => ?_
  have := h t ht
  rw [Span.contains_iff]
  omega

theorem insertSpan_append {before ts : List Span} (h : ∀ t ∈ before, t.stop < r.start) :
    insertSpan r (before ++ ts) = before ++ insertSpan r ts := by
  induction before with
  | nil => rfl
  | cons t before ih =>
    rw [List.cons_append, insertSpan, if_pos (h t List.mem_cons_self),
      ih fun u hu => h u (List.mem_cons_of_mem _ hu)]
    rfl

theorem insertSpan_of_lt {low : ℤ} {after : List Span} (h : Separated low after)
    (hr : r.start ≤ r.stop) (hafter : ∀ t ∈ after, r.stop < t.start) :
    insertSpan r after = r :: after := by
  cases after with
  | nil => rfl
  | cons t after =>
    have hlt := hafter t List.mem_cons_self
    have hspan := h.2.1
    rw [insertSpan, if_neg (by omega), if_pos hlt]

def absorb (r : Span) : (window : List Span) → Span
  | [] => r
  | t :: ts => ⟨min r.start t.start, max r.stop ((t :: ts).getLast (List.cons_ne_nil t ts)).stop⟩

/-- A span absorbs a window: it begins where the first begins, if that is earlier, and ends where
the last ends, if that is later. -/
theorem insertSpan_window {low : ℤ} {t : Span} {ts after : List Span}
    (h : Separated low (t :: (ts ++ after))) (hr : r.start ≤ r.stop)
    (hin : ∀ u ∈ t :: ts, r.start ≤ u.stop ∧ u.start ≤ r.stop)
    (hafter : ∀ u ∈ after, r.stop < u.start) :
    insertSpan r (t :: (ts ++ after)) = absorb r (t :: ts) :: after := by
  induction ts generalizing low r t with
  | nil =>
    obtain ⟨-, -, -, hrest⟩ := h
    obtain ⟨h1, h2⟩ := hin t List.mem_cons_self
    rw [insertSpan, if_neg (by omega), if_neg (by omega)]
    refine insertSpan_of_lt hrest (by simp only; omega) fun u hu => ?_
    have hfirst := hafter u hu
    have hlast := (hrest.bounds u hu).1
    simp only
    omega
  | cons u us ih =>
    obtain ⟨-, -, -, hrest⟩ := h
    obtain ⟨h1, h2⟩ := hin t List.mem_cons_self
    have hnext := hrest.1
    -- The rest of the window overlaps or touches what the first is joined to.
    have hin' : ∀ v ∈ u :: us, (min r.start t.start ≤ v.stop ∧ v.start ≤ max r.stop t.stop) := by
      intro v hv
      have := hin v (List.mem_cons_of_mem _ hv)
      omega
    have hlast : t.stop < ((u :: us).getLast (List.cons_ne_nil _ _)).stop := by
      have hmem := List.getLast_mem (List.cons_ne_nil u us)
      have := hrest.bounds _ (List.mem_append_left after hmem)
      omega
    have hafter' : ∀ v ∈ after, max r.stop t.stop < v.start := by
      intro v hv
      have hfirst := hafter v hv
      have := (hrest.bounds v (List.mem_append_right (u :: us) hv)).1
      omega
    rw [insertSpan, if_neg (by omega), if_neg (by omega), List.cons_append,
      ih (r := ⟨min r.start t.start, max r.stop t.stop⟩) hrest (by simp only; omega) hin' hafter',
      absorb, absorb, List.getLast_cons (List.cons_ne_nil _ _)]
    simp only [List.cons.injEq, Span.mk.injEq, and_true]
    omega

theorem insertSpan_eq {before window after : List Span}
    (h : IsWindow (·.stop < r.start) (·.start ≤ r.stop) s.spans before window after)
    (hr : r.start ≤ r.stop) :
    insertSpan r s.spans = before ++ ([absorb r window] ++ after) := by
  have hsep : Separated Point.endOfInput (before ++ (window ++ after)) := h.eq ▸ s.separated
  have hbehind : ∀ t ∈ before, t.stop < r.start := fun t ht => of_decide_eq_true (h.behind t ht)
  have hbeyond : ∀ t ∈ after, r.stop < t.start := fun t ht =>
    not_le.1 (of_decide_eq_false (h.beyond t ht))
  rw [h.eq, insertSpan_append hbehind]
  cases window with
  | nil =>
    exact congrArg (before ++ ·) (insertSpan_of_lt hsep.append_right.append_right hr hbeyond)
  | cons t ts =>
    have hin : ∀ u ∈ t :: ts, r.start ≤ u.stop ∧ u.start ≤ r.stop := fun u hu =>
      ⟨not_lt.1 (of_decide_eq_false (h.inside u hu).1), of_decide_eq_true (h.inside u hu).2⟩
    rw [List.cons_append, insertSpan_window hsep.append_right hr hin hbeyond]
    rfl

theorem add_of_empty (s : PointSet) (hr : r.Valid) (h : r.start = r.stop) : s.add r = s := by
  rw [add, dif_pos]
  rw [Span.Valid.overlap_domain hr]
  exact (Span.Valid.isEmpty_iff hr).2 h

theorem spans_add (s : PointSet) (hr : r.Valid) (h : r.start ≠ r.stop) :
    (s.add r).spans = insertSpan r s.spans := by
  rw [add, dif_neg]
  · exact congrArg (insertSpan · s.spans) (Span.Valid.overlap_domain hr)
  · rw [Span.Valid.overlap_domain hr]
    exact mt (Span.Valid.isEmpty_iff hr).1 h

theorem insertBySplice_eq (s : PointSet) (hr : r.Valid) :
    insertBySplice s.spans.toArray r = .ok (s.add r).spans.toArray := by
  rw [insertBySplice]
  by_cases hempty : r.start = r.stop
  · rw [if_pos hempty, add_of_empty s hr hempty]
    rfl
  · have hlt : r.start < r.stop := lt_of_le_of_ne hr.2.1 hempty
    obtain ⟨before, window, after, h⟩ := Fault.exists_isWindow
      (fun t : Span => t.stop < r.start) (fun t => t.start ≤ r.stop)
      (s.pairwise_stops.imp fun h => by simp only [decide_eq_true_eq]; omega)
      (s.pairwise_starts.imp fun h => by simp only [decide_eq_true_eq]; omega)
      (fun t ht => by
        have := (s.separated.bounds t ht).2.1
        simp only [decide_eq_true_eq]
        omega)
    have hlow := h.low
    have hhigh := h.high
    rw [← List.size_toArray] at hlow hhigh
    rw [if_neg hempty, bind_of_ok hlow, bind_of_ok hhigh, spans_add s hr hempty,
      insertSpan_eq h hlt.le, h.eq]
    cases window with
    | nil =>
      rw [if_neg (by rw [List.append_nil]; exact lt_irrefl _)]
      exact Fault.splice_eq before [] after _
    | cons t ts =>
      rw [if_pos (by simp), bind_of_ok (Fault.read_head (List.cons_ne_nil t ts)),
        bind_of_ok (Fault.read_getLast (List.cons_ne_nil t ts))]
      exact Fault.splice_eq before (t :: ts) after _

/-! ### Removal -/

theorem remnants_of_apart {t : Span} (hr : r.start < r.stop) (ht : t.start < t.stop)
    (h : t.stop ≤ r.start ∨ r.stop ≤ t.start) : remnants r t = [t] := by
  rcases h with h | h
  · rw [remnants, List.filter_cons_of_pos (by simp [Span.isEmpty]; omega),
      List.filter_cons_of_neg (by simp [Span.isEmpty]; omega), min_eq_left h]
    rfl
  · rw [remnants, List.filter_cons_of_neg (by simp [Span.isEmpty]; omega),
      List.filter_cons_of_pos (by simp [Span.isEmpty]; omega), max_eq_left h]
    rfl

theorem flatMap_remnants_of_apart {ts : List Span} (hr : r.start < r.stop)
    (h : ∀ t ∈ ts, t.start < t.stop ∧ (t.stop ≤ r.start ∨ r.stop ≤ t.start)) :
    ts.flatMap (remnants r) = ts := by
  induction ts with
  | nil => rfl
  | cons t ts ih =>
    obtain ⟨hspan, hapart⟩ := h t List.mem_cons_self
    rw [List.flatMap_cons, remnants_of_apart hr hspan hapart,
      ih fun u hu => h u (List.mem_cons_of_mem _ hu)]
    rfl

theorem remnants_of_overlap {t : Span} (h1 : r.start < t.stop) (h2 : t.start < r.stop) :
    remnants r t = (if t.start < r.start then [⟨t.start, r.start⟩] else []) ++
      if r.stop < t.stop then [⟨r.stop, t.stop⟩] else [] := by
  have hleft : (!Span.isEmpty ⟨t.start, min t.stop r.start⟩) = decide (t.start < r.start) := by
    simp only [Span.isEmpty, ← decide_not, decide_eq_decide]
    omega
  have hright : (!Span.isEmpty ⟨max t.start r.stop, t.stop⟩) = decide (r.stop < t.stop) := by
    simp only [Span.isEmpty, ← decide_not, decide_eq_decide]
    omega
  rw [remnants, List.filter_cons, List.filter_cons, hleft, hright, min_eq_right h1.le,
    max_eq_right h2.le]
  by_cases ha : t.start < r.start <;> by_cases hb : r.stop < t.stop <;> simp [ha, hb]

/-- All that is left of a window that a span overlaps lies to the left of the span, and is of the
first, or to the right, and is of the last. -/
theorem flatMap_remnants_window {low : ℤ} {t : Span} {ts : List Span} (h : Separated low (t :: ts))
    (hin : ∀ u ∈ t :: ts, r.start < u.stop ∧ u.start < r.stop) :
    (t :: ts).flatMap (remnants r) = (if t.start < r.start then [⟨t.start, r.start⟩] else []) ++
      if r.stop < ((t :: ts).getLast (List.cons_ne_nil t ts)).stop then
        [⟨r.stop, ((t :: ts).getLast (List.cons_ne_nil t ts)).stop⟩]
      else [] := by
  obtain ⟨h1, h2⟩ := hin t List.mem_cons_self
  induction ts generalizing low t with
  | nil => rw [List.flatMap_singleton, remnants_of_overlap h1 h2, List.getLast_singleton]
  | cons u us ih =>
    obtain ⟨-, -, -, hrest⟩ := h
    have hnext := hrest.1
    obtain ⟨h3, h4⟩ := hin u (List.mem_cons_of_mem _ List.mem_cons_self)
    rw [List.flatMap_cons, remnants_of_overlap h1 h2,
      ih hrest (fun v hv => hin v (List.mem_cons_of_mem _ hv)) h3 h4, if_neg (c := r.stop < t.stop)
        (by omega), if_neg (c := u.start < r.start) (by omega), List.append_nil, List.nil_append,
      List.getLast_cons (List.cons_ne_nil u us)]

theorem exists_isOverlapped (s : PointSet) (hlt : r.start < r.stop) :
    ∃ before window after,
      IsWindow (·.stop ≤ r.start) (·.start < r.stop) s.spans before window after :=
  Fault.exists_isWindow _ _
    (s.pairwise_stops.imp fun h => by simp only [decide_eq_true_eq]; omega)
    (s.pairwise_starts.imp fun h => by simp only [decide_eq_true_eq]; omega)
    fun t ht => by
      have := (s.separated.bounds t ht).2.1
      simp only [decide_eq_true_eq]
      omega

theorem removeBySplice_eq (s : PointSet) (hr : r.Valid) :
    removeBySplice s.spans.toArray r = .ok (s.remove r).spans.toArray := by
  rw [removeBySplice]
  by_cases hempty : r.start = r.stop
  · rw [if_pos hempty, remove, dif_pos (Span.isEmpty_iff.2 hempty.ge)]
    rfl
  · have hlt : r.start < r.stop := lt_of_le_of_ne hr.2.1 hempty
    obtain ⟨before, window, after, h⟩ := s.exists_isOverlapped hlt
    have hsep : Separated Point.endOfInput (before ++ (window ++ after)) := h.eq ▸ s.separated
    have hbefore : before.flatMap (remnants r) = before :=
      flatMap_remnants_of_apart hlt fun t ht =>
        ⟨(hsep.bounds t (List.mem_append_left _ ht)).2.1, .inl (of_decide_eq_true (h.behind t ht))⟩
    have hafter : after.flatMap (remnants r) = after :=
      flatMap_remnants_of_apart hlt fun t ht =>
        ⟨(hsep.append_right.append_right.bounds t ht).2.1,
          .inr (not_lt.1 (of_decide_eq_false (h.beyond t ht)))⟩
    have hspans : (s.remove r).spans = before ++ (window.flatMap (remnants r) ++ after) := by
      rw [remove, dif_neg (mt Span.isEmpty_iff.1 (not_le.2 hlt))]
      change s.spans.flatMap (remnants r) = _
      rw [h.eq, List.flatMap_append, List.flatMap_append, hbefore, hafter]
    have hlow := h.low
    have hhigh := h.high
    rw [← List.size_toArray] at hlow hhigh
    rw [if_neg hempty, bind_of_ok hlow, bind_of_ok hhigh, hspans, h.eq]
    cases window with
    | nil =>
      rw [if_pos (by rw [List.append_nil])]
      rfl
    | cons t ts =>
      have hin : ∀ u ∈ t :: ts, r.start < u.stop ∧ u.start < r.stop := fun u hu =>
        ⟨not_le.1 (of_decide_eq_false (h.inside u hu).1), of_decide_eq_true (h.inside u hu).2⟩
      rw [if_neg (by simp), bind_of_ok (Fault.read_head (List.cons_ne_nil t ts)),
        bind_of_ok (Fault.read_getLast (List.cons_ne_nil t ts)),
        flatMap_remnants_window (hsep.append_right.append_left) hin]
      exact Fault.splice_eq before (t :: ts) after _

/-! ### Membership -/

theorem containsBySearch_eq (s : PointSet) (p : ℤ) :
    containsBySearch s.spans.toArray p = .ok (s.contains p) := by
  obtain ⟨before, after, hspans, hbefore, hafter, hpoint⟩ := Fault.exists_partition
    (fun t : Span => t.stop ≤ p)
    (s.pairwise_stops.imp fun h => by simp only [decide_eq_true_eq]; omega)
  have hsep : Separated Point.endOfInput (before ++ after) := hspans ▸ s.separated
  have hmem : s.contains p = after.any (·.contains p) := by
    have hany : before.any (·.contains p) = false :=
      any_contains_eq_false fun t ht => .inl (of_decide_eq_true (hbefore t ht))
    rw [contains, hspans, List.any_append, hany, Bool.false_or]
  rw [← List.size_toArray] at hpoint
  rw [containsBySearch, bind_of_ok hpoint, hmem, hspans]
  cases after with
  | nil =>
    rw [if_neg (by simp)]
    rfl
  | cons t ts =>
    have hread : read (before ++ ([t] ++ ts)).toArray before.length = .ok t :=
      Fault.read_head (List.cons_ne_nil t [])
    rw [List.singleton_append] at hread
    rw [if_pos (by simp), bind_of_ok hread]
    have hstop := not_le.1 (of_decide_eq_false (hafter t List.mem_cons_self))
    obtain ⟨-, -, -, hrest⟩ := hsep.append_right
    have hlater : t.start ≤ p ∨ ts.any (·.contains p) = false := by
      by_cases hp : t.start ≤ p
      · exact .inl hp
      · refine .inr (any_contains_eq_false fun u hu => .inr ?_)
        have := (hrest.bounds u hu).1
        omega
    rw [List.any_cons, Span.contains, decide_eq_true hstop, Bool.and_true]
    rcases hlater with hp | hp
    · rw [decide_eq_true hp]
      rfl
    · rw [hp, Bool.or_false]
      rfl

/-! ### Inversion -/

theorem any_gapsFrom {low stop cursor : ℤ} {ts : List Span} (h : Separated low ts)
    (hts : ∀ t ∈ ts, t.start < stop) :
    (gapsFrom stop cursor ts).any (·.contains p) = true ↔
      (cursor ≤ p ∧ p < stop) ∧ ts.any (·.contains p) = false := by
  induction ts generalizing low cursor with
  | nil =>
    rw [gapsFrom]
    by_cases hlt : cursor < stop <;> simp [hlt, Span.contains_iff]
    omega
  | cons t ts ih =>
    obtain ⟨-, hspan, -, hrest⟩ := h
    have hstart := hts t List.mem_cons_self
    have hlater : p < t.stop → ts.any (·.contains p) = false := by
      intro hlt
      refine any_contains_eq_false fun u hu => .inr ?_
      have := (hrest.bounds u hu).1
      omega
    have hgap : (if cursor < t.start then [Span.mk cursor t.start] else []).any
        (·.contains p) = true ↔ cursor ≤ p ∧ p < t.start := by
      by_cases hlt : cursor < t.start <;> simp [hlt, Span.contains_iff]
      omega
    rw [gapsFrom, List.any_append, Bool.or_eq_true, hgap,
      ih hrest fun u hu => hts u (List.mem_cons_of_mem _ hu), List.any_cons, Bool.or_eq_false_iff,
      Bool.eq_false_iff (b := t.contains p), ne_eq, Span.contains_iff]
    constructor
    · rintro (hp | hp)
      · exact ⟨by omega, by omega, hlater (by omega)⟩
      · exact ⟨by omega, by omega, hp.2⟩
    · rintro ⟨hp, hnot, hlast⟩
      by_cases hlt : p < t.start
      · exact .inl (by omega)
      · exact .inr ⟨by omega, hlast⟩

theorem valid_of_mem_gapsFrom {low cursor : ℤ} {ts : List Span} (h : Separated low ts)
    (hr : r.stop ≤ Point.top) (hlow : Point.endOfInput ≤ cursor)
    (ht : t ∈ gapsFrom r.stop cursor ts) : t.Valid := by
  induction ts generalizing low cursor with
  | nil =>
    rw [gapsFrom] at ht
    split at ht
    · cases List.mem_singleton.1 ht
      exact ⟨hlow, by simp only; omega, hr⟩
    · cases ht
  | cons u us ih =>
    obtain ⟨-, hspan, hstop, hrest⟩ := h
    rw [gapsFrom, List.mem_append] at ht
    rcases ht with ht | ht
    · split at ht
      · cases List.mem_singleton.1 ht
        exact ⟨hlow, by simp only; omega, by simp only; omega⟩
      · cases ht
    · exact ih hrest (by omega) ht

theorem gaps_spec (s : PointSet) (hr : r.Valid) (hlt : r.start < r.stop) :
    ∃ missing, gaps s.spans.toArray r = .ok missing ∧ (∀ t ∈ missing, t.Valid) ∧
      ∀ p, missing.any (·.contains p) = (r.contains p && !s.contains p) := by
  obtain ⟨before, window, after, h⟩ := s.exists_isOverlapped hlt
  have hsep : Separated Point.endOfInput (before ++ (window ++ after)) := h.eq ▸ s.separated
  have hwindow := hsep.append_right.append_left
  have hlow := h.low
  rw [← List.size_toArray] at hlow
  have htake : (s.spans.toArray.toList.drop before.length).takeWhile (·.start < r.stop) =
      window := by
    rw [List.toList_toArray, h.eq, List.drop_left]
    exact Fault.takeWhile_append_eq (fun t ht => (h.inside t ht).2) h.beyond
  refine ⟨gapsFrom r.stop r.start window, ?_,
    fun t ht => valid_of_mem_gapsFrom hwindow hr.2.2 hr.1 ht, fun p => ?_⟩
  · rw [gaps, bind_of_ok hlow, htake]
    rfl
  · rw [Bool.eq_iff_iff, any_gapsFrom hwindow fun t ht => of_decide_eq_true (h.inside t ht).2,
      Bool.and_eq_true, Span.contains_iff, Bool.not_eq_true']
    refine and_congr_right fun hp => ?_
    -- Of the spans of the set, just those of the window may hold a point of the span.
    have hbefore : before.any (·.contains p) = false :=
      any_contains_eq_false fun t ht => .inl ((of_decide_eq_true (h.behind t ht)).trans hp.1)
    have hafter : after.any (·.contains p) = false :=
      any_contains_eq_false fun t ht =>
        .inr (hp.2.trans_le (not_lt.1 (of_decide_eq_false (h.beyond t ht))))
    rw [contains, h.eq, List.any_append, List.any_append, hbefore, hafter, Bool.false_or,
      Bool.or_false]

theorem foldlM_insertBySplice_eq (s : PointSet) {rs : List Span} (h : ∀ r ∈ rs, r.Valid) :
    rs.foldlM insertBySplice s.spans.toArray = .ok (rs.foldl add s).spans.toArray := by
  induction rs generalizing s with
  | nil => rfl
  | cons r rs ih =>
    rw [List.foldlM_cons, bind_of_ok (insertBySplice_eq s (h r List.mem_cons_self)),
      ih (s.add r) fun t ht => h t (List.mem_cons_of_mem _ ht)]
    rfl

theorem invertBySplice_eq (s : PointSet) (hr : r.Valid) :
    invertBySplice s.spans.toArray r = .ok (s.invert r).spans.toArray := by
  rw [invertBySplice]
  by_cases hempty : r.start = r.stop
  · have hinvert : s.invert r = s := by
      refine ext_contains fun p => ?_
      rw [contains_invert hr, if_neg]
      rw [Span.contains_iff]
      omega
    rw [if_pos hempty, hinvert]
    rfl
  · obtain ⟨missing, hgaps, hvalid, hmissing⟩ :=
      s.gaps_spec hr (lt_of_le_of_ne hr.2.1 hempty)
    have hinvert : missing.foldl add (s.remove r) = s.invert r := by
      refine ext_contains fun p => ?_
      rw [contains_foldl_add, hmissing, contains_invert hr, contains_remove]
      cases hp : r.contains p with
      | true =>
        rw [Span.Valid.contains_domain hr hp]
        cases s.contains p <;> rfl
      | false => simp
    rw [if_neg hempty, bind_of_ok hgaps, bind_of_ok (removeBySplice_eq s hr),
      foldlM_insertBySplice_eq _ hvalid, hinvert]

/-! ### Two sets -/

theorem uniteBySplice_eq (s t : PointSet) :
    uniteBySplice s.spans.toArray t.spans.toArray = .ok (s.unite t).spans.toArray :=
  foldlM_insertBySplice_eq s fun _ => valid_of_mem_spans

theorem overlaps_cons {a b : Span} {ts : List Span} : overlaps a (b :: ts) =
    (if max a.start b.start < min a.stop b.stop then [a.overlap b] else []) ++ overlaps a ts := by
  have hempty : (a.overlap b).isEmpty = true ↔ ¬max a.start b.start < min a.stop b.stop :=
    Span.isEmpty_iff.trans not_lt.symm
  rw [overlaps, List.map_cons]
  by_cases hlt : max a.start b.start < min a.stop b.stop
  · rw [if_pos hlt, List.filter_cons_of_pos (by simpa using mt hempty.1 (not_not.2 hlt))]
    rfl
  · rw [if_neg hlt, List.filter_cons_of_neg (by simpa using hempty.2 hlt)]
    rfl

theorem overlaps_of_apart {a : Span} {ts : List Span} (h : ∀ t ∈ ts, a.stop ≤ t.start) :
    overlaps a ts = [] := by
  induction ts with
  | nil => rfl
  | cons t ts ih =>
    have := h t List.mem_cons_self
    rw [overlaps_cons, if_neg (by omega), ih fun u hu => h u (List.mem_cons_of_mem _ hu),
      List.append_nil]

/-- Where one span ends no later than another, what follows the other has nothing in common with the
one. -/
theorem flatMap_overlaps_of_le {low : ℤ} {a b : Span} {xs ys : List Span}
    (hys : Separated low (b :: ys)) (hle : a.stop ≤ b.stop) :
    (a :: xs).flatMap (overlaps · (b :: ys)) =
      (if max a.start b.start < min a.stop b.stop then [a.overlap b] else []) ++
        xs.flatMap (overlaps · (b :: ys)) := by
  obtain ⟨-, -, -, hrest⟩ := hys
  rw [List.flatMap_cons, overlaps_cons, overlaps_of_apart, List.append_nil]
  intro t ht
  have := (hrest.bounds t ht).1
  omega

theorem flatMap_overlaps_of_gt {low : ℤ} {a b : Span} {xs ys : List Span}
    (hxs : Separated low (a :: xs)) (hgt : b.stop < a.stop) :
    (a :: xs).flatMap (overlaps · (b :: ys)) =
      (if max a.start b.start < min a.stop b.stop then [a.overlap b] else []) ++
        (a :: xs).flatMap (overlaps · ys) := by
  obtain ⟨-, -, -, hrest⟩ := hxs
  have hnone : xs.flatMap (overlaps · (b :: ys)) = xs.flatMap (overlaps · ys) := by
    refine List.flatMap_congr fun t ht => ?_
    have := (hrest.bounds t ht).1
    rw [overlaps_cons, if_neg (by omega), List.nil_append]
  rw [List.flatMap_cons, List.flatMap_cons, overlaps_cons, hnone, List.append_assoc]

theorem Separated.drop {low : ℤ} {xs : List Span} (h : Separated low xs) (i : ℕ) :
    Separated low (xs.drop i) := by
  rw [← List.take_append_drop i xs] at h
  exact h.append_right

theorem intersectFrom_eq {low low' : ℤ} {xs ys : List Span} (hxs : Separated low xs)
    (hys : Separated low' ys) (i j : ℕ) (common : List Span) :
    intersectFrom xs.toArray ys.toArray i j common =
      .ok (common ++ (xs.drop i).flatMap (overlaps · (ys.drop j))) := by
  induction hn : (xs.length - i) + (ys.length - j) using Nat.strong_induction_on
    generalizing i j common with
  | _ n ih =>
    rw [intersectFrom]
    split
    case isTrue h =>
      obtain ⟨hi, hj⟩ : i < xs.length ∧ j < ys.length := h
      have hx := List.drop_eq_getElem_cons hi
      have hy := List.drop_eq_getElem_cons hj
      rw [bind_of_ok (Fault.read_of_lt hi), bind_of_ok (Fault.read_of_lt hj), List.getElem_toArray,
        List.getElem_toArray]
      by_cases hle : xs[i].stop ≤ ys[j].stop
      · rw [if_pos hle, ih _ (by omega) (i + 1) j _ rfl, hx, hy,
          flatMap_overlaps_of_le (hy ▸ hys.drop j) hle, ← List.append_assoc]
        split <;> simp
      · rw [if_neg hle, ih _ (by omega) i (j + 1) _ rfl, hx, hy,
          flatMap_overlaps_of_gt (hx ▸ hxs.drop i) (not_le.1 hle), ← List.append_assoc]
        split <;> simp
    case isFalse h =>
      have hnone : (xs.drop i).flatMap (overlaps · (ys.drop j)) = [] := by
        rw [List.size_toArray, List.size_toArray, not_and_or, not_lt, not_lt] at h
        rcases h with h | h
        · rw [List.drop_eq_nil_of_le h]
          rfl
        · rw [List.drop_eq_nil_of_le h]
          exact List.flatMap_eq_nil_iff.2 fun a _ => rfl
      rw [hnone, List.append_nil]
      rfl

theorem settleBySplice_eq (s : PointSet) :
    settleBySplice s.spans.toArray = .ok s.settleSurrogates.spans.toArray := by
  have hvalid : Span.surrogates.Valid := by decide
  rw [settleBySplice, bind_of_ok (containsBySearch_eq s _), bind_of_ok (containsBySearch_eq s _),
    settleSurrogates]
  split
  · exact insertBySplice_eq s hvalid
  · exact removeBySplice_eq s hvalid

theorem Edit.map_applyOver {edit : Span → Edit} {start stop : ℤ}
    {onSpans : Array Span → Span → Except Fault (Array Span)}
    (h : ∀ r : Span, r.Valid → onSpans s.spans.toArray r = .ok ((edit r).apply s).spans.toArray) :
    (Span.make start stop >>= onSpans s.spans.toArray) =
      (applyOver edit start stop s).map (·.spans.toArray) := by
  rw [applyOver, Span.make]
  split
  case isTrue hvalid => exact h _ hvalid
  case isFalse => rfl

namespace Script

/-- However a set is made, the splices of arrays come to its spans. -/
theorem runBySplices_eq (x : Script) : x.runBySplices = x.run.map (·.spans.toArray) := by
  induction x with
  | empty => rfl
  | add x start stop ih =>
    rw [runBySplices, ih, run]
    cases x.run with
    | error f => rfl
    | ok s => exact Edit.map_applyOver fun r hr => insertBySplice_eq s hr
  | remove x start stop ih =>
    rw [runBySplices, ih, run]
    cases x.run with
    | error f => rfl
    | ok s => exact Edit.map_applyOver fun r hr => removeBySplice_eq s hr
  | invert x start stop ih =>
    rw [runBySplices, ih, run]
    cases x.run with
    | error f => rfl
    | ok s => exact Edit.map_applyOver fun r hr => invertBySplice_eq s hr
  | unite x y ihx ihy =>
    rw [runBySplices, ihx, ihy, run]
    cases x.run with
    | error f => rfl
    | ok s =>
      cases y.run with
      | error f => rfl
      | ok t => exact uniteBySplice_eq s t
  | intersect x y ihx ihy =>
    rw [runBySplices, ihx, ihy, run]
    cases x.run with
    | error f => rfl
    | ok s =>
      cases y.run with
      | error f => rfl
      | ok t => exact bind_of_ok (intersectFrom_eq s.separated t.separated 0 0 []) _
  | settleSurrogates x ih =>
    rw [runBySplices, ih, run]
    cases x.run with
    | error f => rfl
    | ok s => exact settleBySplice_eq s

end Script

end

end PatternAutomata.PointSet
