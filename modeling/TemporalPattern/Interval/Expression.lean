import Mathlib.Data.Set.Basic
import TemporalPattern.Interval.Basic
import TemporalPattern.TimePoint.Timeline

/-!
# Interval expressions

Intervals built from selected and given ones by intersection and union, and the sets of instants
they stand for.
-/

namespace TemporalPattern

inductive IntervalExpr where
  | selector (name : String) (axis : Axis)
  | literal (start stop : TimePoint)
  | merge (i j : IntervalExpr)
  | join (i j : IntervalExpr)

namespace IntervalExpr

/-- The interval of an expression with its conditions. -/
def interval : IntervalExpr → Constrained Interval
  | selector name axis => .free (.ofElement name axis)
  | literal start stop => Interval.literal start stop
  | merge i j => Interval.merge i.interval j.interval
  | join i j => Interval.join i.interval j.interval

end IntervalExpr

/-- The instants of an interval, its ends included. -/
def Interval.points (t : Timeline) (i : Interval) : Set Int :=
  {x | i.start.value t ≤ x ∧ x ≤ i.stop.value t}

namespace IntervalExpr

/-- The instants of an expression: an intersection for a merge, a union for a join. -/
def points (t : Timeline) : IntervalExpr → Set Int
  | selector name axis => (Interval.ofElement name axis).points t
  | literal start stop => Interval.points t ⟨start, stop⟩
  | merge i j => i.points t ∩ j.points t
  | join i j => i.points t ∪ j.points t

/-- Whether given ends are in order and combined operands have an instant in common. -/
def MakesSense (t : Timeline) : IntervalExpr → Prop
  | selector _ _ => True
  | literal start stop => start.value t ≤ stop.value t
  | merge i j | join i j => i.MakesSense t ∧ j.MakesSense t ∧ (i.points t ∩ j.points t).Nonempty

end IntervalExpr
end TemporalPattern
