import PatternAutomata.Point

/-!
Sets of points, kept as ascending spans that neither touch nor are empty, so that a set has one
representation. Membership after each operation is stated beside it.
-/

set_option autoImplicit false

namespace PatternAutomata

namespace PointSet

/-- Spans that begin at `low` or later and ascend within the domain; none is empty, and no two
touch. -/
def Separated : (low : Int) → List Span → Prop
  | _, [] => True
  | low, r :: rs =>
    low ≤ r.start ∧ r.start < r.stop ∧ r.stop ≤ Point.top ∧ Separated (r.stop + 1) rs

theorem Separated.mono {low low' : Int} {rs : List Span} (h : Separated low rs) (hl : low' ≤ low) :
    Separated low' rs := by
  cases rs with
  | nil => trivial
  | cons r rs => exact ⟨Int.le_trans hl h.1, h.2⟩

theorem Separated.bounds {low : Int} {rs : List Span} (h : Separated low rs) :
    ∀ r ∈ rs, low ≤ r.start ∧ r.start < r.stop ∧ r.stop ≤ Point.top := by
  induction rs generalizing low with
  | nil => simp
  | cons r rs ih =>
    intro t ht
    obtain ⟨h1, h2, h3, h4⟩ := h
    rcases List.mem_cons.1 ht with rfl | ht
    · exact ⟨h1, h2, h3⟩
    · have := ih h4 t ht
      omega

end PointSet

structure PointSet where
  spans : List Span
  separated : PointSet.Separated Point.endOfInput spans
  deriving DecidableEq

namespace PointSet

def empty : PointSet := ⟨[], trivial⟩

def isEmpty (s : PointSet) : Bool := s.spans.isEmpty

def contains (s : PointSet) (p : Int) : Bool := s.spans.any (·.contains p)

/-- Joins `r` with the spans it overlaps or touches. -/
def insertSpan (r : Span) : List Span → List Span
  | [] => [r]
  | t :: ts =>
    if t.stop < r.start then t :: insertSpan r ts
    else if r.stop < t.start then r :: t :: ts
    else insertSpan ⟨min r.start t.start, max r.stop t.stop⟩ ts

theorem separated_insertSpan {low : Int} {r : Span} {ts : List Span} (hl : low ≤ r.start)
    (hr : r.start < r.stop) (ht : r.stop ≤ Point.top) (h : Separated low ts) :
    Separated low (insertSpan r ts) := by
  induction ts generalizing low r with
  | nil => exact ⟨hl, hr, ht, trivial⟩
  | cons t ts ih =>
    obtain ⟨h1, h2, h3, h4⟩ := h
    unfold insertSpan
    split
    · exact ⟨h1, h2, h3, ih (by omega) hr ht h4⟩
    · split
      · exact ⟨hl, hr, ht, by omega, h2, h3, h4⟩
      · exact ih (by simp only; omega) (by simp only; omega) (by simp only; omega)
          (h4.mono (by omega))

def add (s : PointSet) (r : Span) : PointSet :=
  if h : (r.overlap Span.domain).isEmpty then s
  else
    ⟨insertSpan (r.overlap Span.domain) s.spans,
      have := mt Span.isEmpty_iff.2 h
      separated_insertSpan (Int.le_max_right _ _) (by omega) (Int.min_le_right _ _) s.separated⟩

def remnants (r t : Span) : List Span :=
  [⟨t.start, min t.stop r.start⟩, ⟨max t.start r.stop, t.stop⟩].filter (!·.isEmpty)

theorem separated_remnants {low : Int} {r : Span} {ts : List Span} (hr : r.start < r.stop)
    (h : Separated low ts) : Separated low (ts.flatMap (remnants r)) := by
  induction ts generalizing low with
  | nil => trivial
  | cons t ts ih =>
    obtain ⟨h1, h2, h3, h4⟩ := h
    have rest := ih h4
    rw [List.flatMap_cons, remnants]
    -- Either side of `r` may be left of the first span, or neither.
    by_cases ha : t.start < r.start <;> by_cases hb : r.stop < t.stop
    · rw [List.filter_cons_of_pos (by simp [Span.isEmpty]; omega),
        List.filter_cons_of_pos (by simp [Span.isEmpty]; omega)]
      exact ⟨h1, by simp only; omega, by simp only; omega, by simp only; omega,
        by simp only; omega, h3, rest⟩
    · rw [List.filter_cons_of_pos (by simp [Span.isEmpty]; omega),
        List.filter_cons_of_neg (by simp [Span.isEmpty]; omega)]
      exact ⟨h1, by simp only; omega, by simp only; omega, rest.mono (by simp only; omega)⟩
    · rw [List.filter_cons_of_neg (by simp [Span.isEmpty]; omega),
        List.filter_cons_of_pos (by simp [Span.isEmpty]; omega)]
      exact ⟨by simp only; omega, by simp only; omega, h3, rest⟩
    · rw [List.filter_cons_of_neg (by simp [Span.isEmpty]; omega),
        List.filter_cons_of_neg (by simp [Span.isEmpty]; omega)]
      exact rest.mono (by omega)

def remove (s : PointSet) (r : Span) : PointSet :=
  if h : r.isEmpty then s
  else
    ⟨s.spans.flatMap (remnants r),
      have := mt Span.isEmpty_iff.2 h
      separated_remnants (by omega) s.separated⟩

def ofSpan (r : Span) : PointSet := empty.add r

def ofSpans (rs : List Span) : PointSet := rs.foldl add empty

def endOfInput : PointSet := ofSpan (Span.single Point.endOfInput)

def codePoints : PointSet := ofSpan Span.codePoints

def single (c : Char) : PointSet := ofSpan (Span.single (Point.ofChar c))

def unite (s t : PointSet) : PointSet := t.spans.foldl add s

def subtract (s t : PointSet) : PointSet := t.spans.foldl remove s

def overlaps (a : Span) (ts : List Span) : List Span :=
  (ts.map a.overlap).filter (!·.isEmpty)

theorem separated_overlaps {low low' : Int} {a : Span} {ts rs : List Span} (h : Separated low' ts)
    (hl : low ≤ max a.start low') (hs : low ≤ a.stop + 1) (hr : Separated (a.stop + 1) rs) :
    Separated low (overlaps a ts ++ rs) := by
  induction ts generalizing low low' with
  | nil => exact hr.mono hs
  | cons t ts ih =>
    obtain ⟨h1, h2, h3, h4⟩ := h
    rw [overlaps, List.map_cons]
    by_cases he : (a.overlap t).isEmpty = true
    · rw [List.filter_cons_of_neg (by simp [he])]
      have := Span.isEmpty_iff.1 he
      simp only [Span.overlap] at this
      exact ih h4 (by omega) hs
    · rw [List.filter_cons_of_pos (by simp [he])]
      have := mt Span.isEmpty_iff.2 he
      simp only [Span.overlap] at this
      exact ⟨by simp only [Span.overlap]; omega, by simp only [Span.overlap]; omega,
        by simp only [Span.overlap]; omega,
        ih h4 (by simp only [Span.overlap]; omega) (by simp only [Span.overlap]; omega)⟩

theorem separated_flatMap_overlaps {low low' : Int} {ts us : List Span} (h : Separated low ts)
    (hu : Separated low' us) : Separated low (ts.flatMap fun a => overlaps a us) := by
  induction ts generalizing low with
  | nil => trivial
  | cons a ts ih =>
    obtain ⟨h1, h2, -, h4⟩ := h
    rw [List.flatMap_cons]
    exact separated_overlaps hu (by omega) (by omega) (ih h4)

def intersect (s t : PointSet) : PointSet :=
  ⟨s.spans.flatMap fun a => overlaps a t.spans, separated_flatMap_overlaps s.separated t.separated⟩

def invert (s : PointSet) (r : Span) : PointSet :=
  (s.remove r).unite ((ofSpan r).subtract s)

/-- Text holds no surrogate, so their membership is settled from their neighbours: all of them are
members if the code points on both sides are, and none otherwise. -/
def settleSurrogates (s : PointSet) : PointSet :=
  if s.contains (Span.surrogates.start - 1) && s.contains Span.surrogates.stop then
    s.add Span.surrogates
  else s.remove Span.surrogates

def complement (s : PointSet) : PointSet := (s.invert Span.codePoints).settleSurrogates

def size (s : PointSet) : Nat := s.spans.foldr (fun r n => r.length + n) 0

def point? (s : PointSet) : Option Int :=
  match s.spans with
  | [r] => if r.length = 1 then some r.start else none
  | _ => none

def char? (s : PointSet) : Option Char := s.point?.bind Point.char?

/-- The points inside the domain at which membership changes, in ascending order. -/
def boundaries (s : PointSet) : List Int :=
  s.spans.flatMap fun r =>
    (if Point.endOfInput < r.start then [r.start] else []) ++
      (if r.stop < Point.top then [r.stop] else [])

def text (s : PointSet) : String :=
  "[" ++ ", ".intercalate (s.spans.map Span.text) ++ "]"

theorem contains_empty (p : Int) : empty.contains p = false := rfl

theorem any_insertSpan (r : Span) (ts : List Span) (p : Int) (hr : r.start ≤ r.stop)
    (ht : ∀ t ∈ ts, t.start ≤ t.stop) :
    (insertSpan r ts).any (·.contains p) = (r.contains p || ts.any (·.contains p)) := by
  induction ts generalizing r with
  | nil => simp [insertSpan]
  | cons t ts ih =>
    have h0 := ht t (by simp)
    have h1 : ∀ u ∈ ts, u.start ≤ u.stop := fun u hu => ht u (by simp [hu])
    unfold insertSpan
    split
    · rw [List.any_cons, ih r hr h1, List.any_cons, Bool.or_left_comm]
    · split
      · rfl
      · rw [ih _ (by simp only; omega) h1, List.any_cons, ← Bool.or_assoc]
        congr 1
        rw [Bool.eq_iff_iff, Bool.or_eq_true]
        simp only [Span.contains_iff]
        omega

theorem contains_add (s : PointSet) (r : Span) (p : Int) :
    (s.add r).contains p = ((r.contains p && Span.domain.contains p) || s.contains p) := by
  rw [← Span.contains_overlap]
  unfold add
  split
  · rename_i h
    have : (r.overlap Span.domain).contains p = false := by
      rw [← Bool.not_eq_true, Span.contains_iff]
      have := Span.isEmpty_iff.1 h
      omega
    rw [this, Bool.false_or]
  · rename_i h
    have := mt Span.isEmpty_iff.2 h
    exact any_insertSpan _ _ p (by omega) fun t ht => Int.le_of_lt (s.separated.bounds t ht).2.1

theorem any_remnants (r t : Span) (p : Int) :
    (remnants r t).any (·.contains p) = (t.contains p && !r.contains p) := by
  rw [Bool.eq_iff_iff, Bool.and_eq_true, Bool.not_eq_true', ← Bool.not_eq_true]
  simp only [remnants, List.any_eq_true, List.mem_filter, List.mem_cons, List.not_mem_nil, or_false,
    Bool.not_eq_true', ← Bool.not_eq_true, Span.contains_iff, Span.isEmpty_iff]
  constructor
  · rintro ⟨u, ⟨rfl | rfl, h1⟩, h2⟩ <;> simp only at h1 h2 <;> omega
  · intro h
    by_cases hp : p < r.start
    · exact ⟨_, ⟨Or.inl rfl, by simp only; omega⟩, by simp only; omega⟩
    · exact ⟨_, ⟨Or.inr rfl, by simp only; omega⟩, by simp only; omega⟩

theorem contains_remove (s : PointSet) (r : Span) (p : Int) :
    (s.remove r).contains p = (s.contains p && !r.contains p) := by
  unfold remove
  split
  · rename_i h
    have : r.contains p = false := by
      rw [← Bool.not_eq_true, Span.contains_iff]
      have := Span.isEmpty_iff.1 h
      omega
    simp [this]
  · simp only [contains, List.any_flatMap, any_remnants]
    induction s.spans with
    | nil => rfl
    | cons t ts ih => rw [List.any_cons, List.any_cons, ih, Bool.and_or_distrib_right]

end PointSet

end PatternAutomata
