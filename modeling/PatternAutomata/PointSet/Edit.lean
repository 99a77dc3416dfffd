import PatternAutomata.PointSet

/-!
Edits of a set of points: the operations that change one, as data, and what each does to the
membership of a point. A script makes a set out of empty ones by edits.
-/

set_option autoImplicit false

namespace PatternAutomata.PointSet

inductive Edit
  | add (r : Span)
  | remove (r : Span)
  | invert (r : Span)
  | unite (other : PointSet)
  | intersect (other : PointSet)
  | settleSurrogates

namespace Edit

def apply (s : PointSet) : Edit → PointSet
  | add r => s.add r
  | remove r => s.remove r
  | invert r => s.invert r
  | unite other => s.unite other
  | intersect other => s.intersect other
  | settleSurrogates => s.settleSurrogates

def onMembers (member : Int → Bool) : Edit → Int → Bool
  | add r, p => r.contains p || member p
  | remove r, p => !r.contains p && member p
  | invert r, p => if r.contains p then !member p else member p
  | unite other, p => other.contains p || member p
  | intersect other, p => other.contains p && member p
  | settleSurrogates, p =>
    if Span.surrogates.contains p then
      member (Span.surrogates.start - 1) && member Span.surrogates.stop
    else member p

def applyOver (edit : Span → Edit) (start stop : Int) (s : PointSet) : Except Fault PointSet :=
  (Span.make start stop).map fun r => (edit r).apply s

def Valid : Edit → Prop
  | add r | remove r | invert r => r.Valid
  | unite _ | intersect _ | settleSurrogates => True

end Edit

/-- How a set is made out of empty ones, one edit after another. The sets that it is united or
intersected with are made in the same way. -/
inductive Script
  | empty
  | add (s : Script) (start stop : Int)
  | remove (s : Script) (start stop : Int)
  | invert (s : Script) (start stop : Int)
  | unite (s other : Script)
  | intersect (s other : Script)
  | settleSurrogates (s : Script)

namespace Script

def run : Script → Except Fault PointSet
  | empty => .ok .empty
  | add s start stop => s.run >>= Edit.applyOver .add start stop
  | remove s start stop => s.run >>= Edit.applyOver .remove start stop
  | invert s start stop => s.run >>= Edit.applyOver .invert start stop
  | unite s other => return Edit.apply (← s.run) (.unite (← other.run))
  | intersect s other => return Edit.apply (← s.run) (.intersect (← other.run))
  | settleSurrogates s => return Edit.apply (← s.run) .settleSurrogates

def members : Script → Int → Bool
  | empty => fun _ => false
  | add s start stop => (Edit.add ⟨start, stop⟩).onMembers s.members
  | remove s start stop => (Edit.remove ⟨start, stop⟩).onMembers s.members
  | invert s start stop => (Edit.invert ⟨start, stop⟩).onMembers s.members
  | unite s other => fun p => other.members p || s.members p
  | intersect s other => fun p => other.members p && s.members p
  | settleSurrogates s => Edit.settleSurrogates.onMembers s.members

def Valid : Script → Prop
  | empty => True
  | add s start stop | remove s start stop | invert s start stop =>
    s.Valid ∧ Span.Valid ⟨start, stop⟩
  | unite s other | intersect s other => s.Valid ∧ other.Valid
  | settleSurrogates s => s.Valid

end Script

end PatternAutomata.PointSet
