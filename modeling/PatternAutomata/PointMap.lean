import PatternAutomata.PointSet

/-!
Maps from points to values. A map is an ascending list of entries, each in force up to the next
one, and the last up to the end of the domain. Neighbours differ in value, so a map has one
representation, and its runs are maximal.
-/

set_option autoImplicit false

namespace PatternAutomata

namespace PointMap

/-- From `start` on, up to the next entry, points have `value`, or none. -/
structure Entry (V : Type) where
  start : Int
  value : Option V
  deriving DecidableEq

/-- A maximal range of points with one value, or without one. -/
structure Run (V : Type) where
  span : Span
  value : Option V
  deriving DecidableEq

variable {V W : Type}

/-- Entries that may follow one of value `before`: they begin at `low` or later, ascend within the
domain, and each differs in value from the one before it. -/
def Follows : (low : Int) → (before : Option V) → List (Entry V) → Prop
  | _, _, [] => True
  | low, before, e :: es =>
    low ≤ e.start ∧ e.start < Point.top ∧ e.value ≠ before ∧ Follows (e.start + 1) e.value es

def Ascends : (low : Int) → List (Entry V) → Prop
  | _, [] => True
  | low, e :: es => low ≤ e.start ∧ e.start < Point.top ∧ Follows (e.start + 1) e.value es

def Covers (es : List (Entry V)) : Prop :=
  Ascends Point.endOfInput es ∧ es.head?.map Entry.start = some Point.endOfInput

theorem Follows.ascends {low : Int} {before : Option V} {es : List (Entry V)}
    (h : Follows low before es) : Ascends low es := by
  cases es with
  | nil => trivial
  | cons e es => exact ⟨h.1, h.2.1, h.2.2.2⟩

theorem Follows.mono {low low' : Int} {before : Option V} {es : List (Entry V)}
    (h : Follows low before es) (hl : low' ≤ low) : Follows low' before es := by
  cases es with
  | nil => trivial
  | cons e es => exact ⟨Int.le_trans hl h.1, h.2⟩

theorem Ascends.mono {low low' : Int} {es : List (Entry V)} (h : Ascends low es)
    (hl : low' ≤ low) : Ascends low' es := by
  cases es with
  | nil => trivial
  | cons e es => exact ⟨Int.le_trans hl h.1, h.2⟩

end PointMap

structure PointMap (V : Type) where
  entries : List (PointMap.Entry V)
  covers : PointMap.Covers entries
  deriving DecidableEq

namespace PointMap

variable {V W : Type}

def empty : PointMap V :=
  ⟨[⟨Point.endOfInput, none⟩], ⟨Int.le_refl _, (by decide : Point.endOfInput < Point.top), trivial⟩,
    rfl⟩

/-- The value in force at `p`: that of the last entry that starts at or before `p`. -/
def inForce (p : Int) : (before : Option V) → List (Entry V) → Option V
  | before, [] => before
  | before, e :: es => if e.start ≤ p then inForce p e.value es else before

def get? (m : PointMap V) (p : Int) : Option V :=
  if Point.endOfInput ≤ p ∧ p < Point.top then inForce p none m.entries else none

def isEmpty (m : PointMap V) : Bool :=
  match m.entries with
  | [e] => e.value.isNone
  | _ => false

def runsFrom : List (Entry V) → List (Run V)
  | [] => []
  | [e] => [⟨⟨e.start, Point.top⟩, e.value⟩]
  | e :: e' :: es => ⟨⟨e.start, e'.start⟩, e.value⟩ :: runsFrom (e' :: es)

/-- All maximal runs, with and without a value, which cover the domain in ascending order. -/
def runs (m : PointMap V) : List (Run V) := runsFrom m.entries

def valued (m : PointMap V) : List (Span × V) :=
  m.runs.filterMap fun r => r.value.map fun v => (r.span, v)

def boundaries (m : PointMap V) : List Int := m.entries.tail.map Entry.start

def resume (stop : Int) (es : List (Entry V)) : List (Entry V) :=
  if stop < Point.top then
    ⟨stop, inForce stop none es⟩ :: es.dropWhile fun e => e.start ≤ stop
  else []

theorem follows_dropWhile {low stop : Int} {before : Option V} {es : List (Entry V)}
    (h : Follows low before es) :
    Follows (stop + 1) (inForce stop before es) (es.dropWhile fun e => e.start ≤ stop) := by
  induction es generalizing low before with
  | nil => trivial
  | cons e es ih =>
    obtain ⟨-, h2, h3, h4⟩ := h
    by_cases he : e.start ≤ stop
    · rw [List.dropWhile_cons_of_pos (by simpa using he), inForce, if_pos he]
      exact ih h4
    · rw [List.dropWhile_cons_of_neg (by simpa using he), inForce, if_neg he]
      exact ⟨by omega, h2, h3, h4⟩

theorem ascends_resume {stop : Int} {es : List (Entry V)} (h : Covers es)
    (hs : Point.endOfInput ≤ stop) : Ascends stop (resume stop es) := by
  unfold resume
  split
  · rename_i ht
    refine ⟨Int.le_refl _, ht, ?_⟩
    obtain ⟨ha, hh⟩ := h
    cases es with
    | nil => cases hh
    | cons e es =>
      have he : e.start = Point.endOfInput := by simpa using hh
      have hle : e.start ≤ stop := by omega
      rw [List.dropWhile_cons_of_pos (by simpa using hle), inForce, if_pos hle]
      exact follows_dropWhile ha.2.2
  · trivial

section Edits

variable [DecidableEq V]

/-- Puts an entry in front, taking in a following one of the same value. -/
def glue (e : Entry V) : List (Entry V) → List (Entry V)
  | [] => [e]
  | t :: ts => if t.value = e.value then e :: ts else e :: t :: ts

theorem head?_glue (e : Entry V) (es : List (Entry V)) : (glue e es).head? = some e := by
  cases es with
  | nil => rfl
  | cons t ts =>
    by_cases hv : t.value = e.value
    · rw [glue, if_pos hv]
      rfl
    · rw [glue, if_neg hv]
      rfl

theorem ascends_glue {low : Int} {e : Entry V} {es : List (Entry V)} (hl : low ≤ e.start)
    (ht : e.start < Point.top) (h : Ascends (e.start + 1) es) : Ascends low (glue e es) := by
  cases es with
  | nil => exact ⟨hl, ht, trivial⟩
  | cons t ts =>
    obtain ⟨h1, h2, h3⟩ := h
    by_cases hv : t.value = e.value
    · rw [glue, if_pos hv]
      exact ⟨hl, ht, hv ▸ h3.mono (by omega)⟩
    · rw [glue, if_neg hv]
      exact ⟨hl, ht, h1, h2, hv, h3⟩

theorem ascends_foldr_glue {low start : Int} {es tail : List (Entry V)} (h : Ascends low es)
    (hs : low ≤ start) (ht : Ascends start tail) :
    Ascends low ((es.takeWhile fun e => e.start < start).foldr glue tail) := by
  induction es generalizing low with
  | nil => exact ht.mono hs
  | cons e es ih =>
    obtain ⟨h1, h2, h3⟩ := h
    by_cases he : e.start < start
    · rw [List.takeWhile_cons_of_pos (by simpa using he), List.foldr_cons]
      exact ascends_glue h1 h2 (ih h3.ascends (by omega))
    · rw [List.takeWhile_cons_of_neg (by simpa using he)]
      exact ht.mono hs

theorem head?_foldr_glue {start : Int} {es tail : List (Entry V)} (h : Covers es)
    (hs : Point.endOfInput ≤ start) (ht : tail.head?.map Entry.start = some start) :
    ((es.takeWhile fun e => e.start < start).foldr glue tail).head?.map Entry.start =
      some Point.endOfInput := by
  obtain ⟨-, hh⟩ := h
  cases es with
  | nil => cases hh
  | cons e es =>
    have he : e.start = Point.endOfInput := by simpa using hh
    by_cases hlt : e.start < start
    · rw [List.takeWhile_cons_of_pos (by simpa using hlt), List.foldr_cons, head?_glue]
      exact hh
    · rw [List.takeWhile_cons_of_neg (by simpa using hlt), List.foldr_nil, ht,
        (by omega : start = Point.endOfInput)]

def override (r : Span) (v : Option V) (es : List (Entry V)) : List (Entry V) :=
  (es.takeWhile fun e => e.start < r.start).foldr glue (glue ⟨r.start, v⟩ (resume r.stop es))

theorem covers_override {r : Span} {v : Option V} {es : List (Entry V)} (h : Covers es)
    (hs : Point.endOfInput ≤ r.start) (hr : r.start < r.stop) (ht : r.stop ≤ Point.top) :
    Covers (override r v es) := by
  have hresume := ascends_resume h (show Point.endOfInput ≤ r.stop by omega)
  have hglue : Ascends r.start (glue ⟨r.start, v⟩ (resume r.stop es)) :=
    ascends_glue (Int.le_refl _) (by simp only; omega) (hresume.mono (by simp only; omega))
  exact ⟨ascends_foldr_glue h.1 hs hglue, head?_foldr_glue h hs (by rw [head?_glue]; rfl)⟩

theorem covers_assign (m : PointMap V) {r : Span} (v : Option V)
    (h : ¬ (r.overlap Span.domain).isEmpty = true) :
    Covers (override (r.overlap Span.domain) v m.entries) := by
  have hlt := mt Span.isEmpty_iff.2 h
  exact covers_override m.covers (Int.le_max_right _ _) (by omega) (Int.min_le_right _ _)

def assign (m : PointMap V) (r : Span) (v : Option V) : PointMap V :=
  if h : (r.overlap Span.domain).isEmpty then m
  else ⟨override (r.overlap Span.domain) v m.entries, covers_assign m v h⟩

def fill (m : PointMap V) (r : Span) (v : V) : PointMap V := m.assign r (some v)

def fillSet (m : PointMap V) (s : PointSet) (v : V) : PointMap V :=
  s.spans.foldl (fun m r => m.fill r v) m

def clear (m : PointMap V) (r : Span) : PointMap V := m.assign r none

/-- The map that has each of the given values on its span; the spans are disjoint. -/
def ofPieces (pieces : List (Span × V)) : PointMap V :=
  pieces.foldr (fun piece m => m.fill piece.1 piece.2) empty

end Edits

section Images

variable [DecidableEq W]

def images (f : V → Option W) (es : List (Entry V)) : List (Entry W) :=
  es.foldr (fun e es => glue ⟨e.start, e.value.bind f⟩ es) []

theorem ascends_images {low : Int} {f : V → Option W} {es : List (Entry V)} (h : Ascends low es) :
    Ascends low (images f es) := by
  induction es generalizing low with
  | nil => trivial
  | cons e es ih => exact ascends_glue h.1 h.2.1 (ih h.2.2.ascends)

theorem covers_images {f : V → Option W} {es : List (Entry V)} (h : Covers es) :
    Covers (images f es) := by
  refine ⟨ascends_images h.1, ?_⟩
  cases es with
  | nil => cases h.2
  | cons e es =>
    rw [images, List.foldr_cons, head?_glue]
    exact h.2

def filterMap (f : V → Option W) (m : PointMap V) : PointMap W :=
  ⟨images f m.entries, covers_images m.covers⟩

end Images

def text (value : V → String) (m : PointMap V) : String :=
  "\x7b" ++ ", ".intercalate (m.valued.map fun (r, v) => r.text ++ ": " ++ value v) ++ "\x7d"

end PointMap

end PatternAutomata
