import TemporalPattern.Comparison.Basic
import TemporalPattern.TimePoint.Bounds

/-!
# Static verdicts on comparisons

What can be said about a comparison without looking at any data. Two values are ordered; two time
points are decided by their values or by bounds that keep them apart. All else is open.
-/

namespace TemporalPattern

namespace Comparator

/-- The verdict on values of types without a common order: they differ, and that is all. -/
def verdictOnIncomparable : Comparator → Verdict
  | eq => some false
  | neq => some true
  | _ => none

/-- The verdict when the left side is at most the right side. -/
def verdictOnAtMost : Comparator → Verdict
  | lte => some true
  | gt => some false
  | _ => none

/-- The verdict when the left side is at least the right side. -/
def verdictOnAtLeast : Comparator → Verdict
  | gte => some true
  | lt => some false
  | _ => none

def verdictOnValues (op : Comparator) (lhs rhs : Value) : Verdict :=
  if lhs.type.isComparableWith rhs.type then (lhs.compare? rhs).map op.holds
  else op.verdictOnIncomparable

end Comparator

namespace Bounds

/-- Whether every value within `a` is below every value within `b`. -/
def below (a b : Bounds) : Bool :=
  match a.upper, b.lower with
  | some u, some l => u < l
  | _, _ => false

/-- Whether every value within `a` is at most every value within `b`. -/
def atMost (a b : Bounds) : Bool :=
  match a.upper, b.lower with
  | some u, some l => u ≤ l
  | _, _ => false

end Bounds

namespace Comparator

/-- The verdict on values within the given bounds; the first rule that applies decides. -/
def verdictOnBounds (op : Comparator) (lhs rhs : Bounds) : Verdict :=
  if lhs.below rhs then some (op.holds .lt)
  else if rhs.below lhs then some (op.holds .gt)
  else if lhs.atMost rhs then op.verdictOnAtMost
  else if rhs.atMost lhs then op.verdictOnAtLeast
  else none

def verdictOnTimes (op : Comparator) (lhs rhs : TimePoint) : Verdict :=
  match lhs.evaluate, rhs.evaluate with
  | some s, some t => some (op.holds (compare s t))
  | _, _ => op.verdictOnBounds lhs.bounds rhs.bounds

end Comparator

namespace Comparison

/-- The verdict on a comparison without any data. -/
def evaluate (c : Comparison) : Verdict :=
  match c.lhs, c.rhs with
  | .value v, .value w => c.op.verdictOnValues v w
  | .time p, .time q => c.op.verdictOnTimes p q
  | _, _ => none

end Comparison
end TemporalPattern
