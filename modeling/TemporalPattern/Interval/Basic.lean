import TemporalPattern.Predicate

/-!
# Intervals

Pairs of time points. An interval that is built rather than selected makes sense only under
conditions; they travel with it and end up in the predicate in which it is used.
-/

namespace TemporalPattern

/-- A value with the conditions under which it makes sense. -/
structure Constrained (α : Type) where
  value : α
  constraints : List Predicate

/-- The time from `start` to `stop`. -/
structure Interval where
  start : TimePoint
  stop : TimePoint

namespace Constrained

/-- A value without conditions. -/
def free {α : Type} (value : α) : Constrained α :=
  ⟨value, []⟩

/-- One more condition after the others. -/
def require {α : Type} (c : Constrained α) (p : Predicate) : Constrained α :=
  ⟨c.value, c.constraints ++ [p]⟩

end Constrained

namespace Interval

/-- The interval of an element on an axis. -/
def ofElement (name : String) (axis : Axis) : Interval :=
  ⟨.selector name axis.start, .selector name axis.stop⟩

/-- The interval of the whole pattern on an axis. -/
def global (axis : Axis) : Interval :=
  ofElement globalVariable axis

/-- The predicate that an interval starts before it stops or just then. -/
def wellFormed (i : Interval) : Predicate :=
  i.start.compare .lte i.stop

/-- The predicate that an interval contains a point, its ends included. -/
def containsPoint (i : Interval) (p : TimePoint) : Predicate :=
  (i.start.compare .lte p).and (i.stop.compare .gte p)

def length (i : Interval) : TimePoint :=
  .duration i.start i.stop

/-- The interval between two given points, which have to be in order. -/
def literal (start stop : TimePoint) : Constrained Interval :=
  ⟨⟨start, stop⟩, [wellFormed ⟨start, stop⟩]⟩

/-- The latest start and the earliest stop. -/
def overlap (i j : Interval) : Interval :=
  ⟨.aggregate .max [i.start, j.start], .aggregate .min [i.stop, j.stop]⟩

/-- The earliest start and the latest stop. -/
def span (i j : Interval) : Interval :=
  ⟨.aggregate .min [i.start, j.start], .aggregate .max [i.stop, j.stop]⟩

/-- The interval `result` made of two others, which have to overlap or meet. -/
private def combine (result : Interval) (i j : Constrained Interval) : Constrained Interval :=
  ⟨result, (i.value.overlap j.value).wellFormed :: (i.constraints ++ j.constraints)⟩

/-- The intersection of two intervals. -/
def merge (i j : Constrained Interval) : Constrained Interval :=
  combine (i.value.overlap j.value) i j

/-- The union of two intervals. -/
def join (i j : Constrained Interval) : Constrained Interval :=
  combine (i.value.span j.value) i j

def render (i : Interval) : String :=
  s!"Interval({i.start.render}, {i.stop.render})"

end Interval
end TemporalPattern
