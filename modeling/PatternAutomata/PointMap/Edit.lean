import PatternAutomata.PointMap

/-!
Edits of a map over points: the operations that change one, as data, and what each does to a partial
function. A script makes a map out of the empty one by edits, of which some may change the type of
the values.
-/

set_option autoImplicit false

namespace PatternAutomata.PointMap

inductive Edit (V : Type)
  | fill (r : Span) (v : V)
  | fillSet (s : PointSet) (v : V)
  | clear (r : Span)
  | filterMap (f : V → Option V)

namespace Edit

variable {V : Type}

def apply [DecidableEq V] (m : PointMap V) : Edit V → PointMap V
  | fill r v => m.fill r v
  | fillSet s v => m.fillSet s v
  | clear r => m.clear r
  | filterMap f => m.filterMap f

def onValues (get : Int → Option V) : Edit V → Int → Option V
  | fill r v, p => if r.contains p then some v else get p
  | fillSet s v, p => if s.contains p then some v else get p
  | clear r, p => if r.contains p then none else get p
  | filterMap f, p => (get p).bind f

def applyOver [DecidableEq V] (edit : Span → Edit V) (start stop : Int) (m : PointMap V) :
    Except Fault (PointMap V) :=
  (Span.make start stop).map fun r => (edit r).apply m

def Valid : Edit V → Prop
  | fill r _ | clear r => r.Valid
  | fillSet _ _ | filterMap _ => True

end Edit

/-- How a map is made out of the empty one, one edit after another. -/
inductive Script : Type → Type 1
  | empty {V : Type} : Script V
  | fill {V : Type} [DecidableEq V] (m : Script V) (start stop : Int) (v : V) : Script V
  | fillSet {V : Type} [DecidableEq V] (m : Script V) (s : PointSet) (v : V) : Script V
  | clear {V : Type} [DecidableEq V] (m : Script V) (start stop : Int) : Script V
  | filterMap {V W : Type} [DecidableEq W] (m : Script V) (f : V → Option W) : Script W

namespace Script

def run {V : Type} : Script V → Except Fault (PointMap V)
  | empty => .ok .empty
  | fill m start stop v => m.run >>= Edit.applyOver (.fill · v) start stop
  | fillSet m s v => return Edit.apply (← m.run) (.fillSet s v)
  | clear m start stop => m.run >>= Edit.applyOver .clear start stop
  | filterMap m f => return (← m.run).filterMap f

def values {V : Type} : Script V → Int → Option V
  | empty => fun _ => none
  | fill m start stop v => (Edit.fill ⟨start, stop⟩ v).onValues m.values
  | fillSet m s v => (Edit.fillSet s v).onValues m.values
  | clear m start stop => (Edit.clear ⟨start, stop⟩).onValues m.values
  | filterMap m f => fun p => (m.values p).bind f

def Valid {V : Type} : Script V → Prop
  | empty => True
  | fill m start stop _ => m.Valid ∧ Span.Valid ⟨start, stop⟩
  | clear m start stop => m.Valid ∧ Span.Valid ⟨start, stop⟩
  | fillSet m _ _ => m.Valid
  | filterMap m _ => m.Valid

end Script

end PatternAutomata.PointMap
