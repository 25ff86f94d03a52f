import Mathlib.Order.Hom.Basic
import TemporalPattern.Predicate
import TemporalPattern.TimePoint.Timeline

/-!
# Valuations

What comparisons mean once the data is known. Operands are values in a linear order that contains
the integers, time points the integers they stand for.
-/

namespace TemporalPattern

universe u

/-- The relation an operator stands for. -/
def Comparator.Relates {D : Type u} [LinearOrder D] : Comparator → D → D → Prop
  | eq, a, b => a = b
  | neq, a, b => a ≠ b
  | gt, a, b => b < a
  | lt, a, b => a < b
  | gte, a, b => b ≤ a
  | lte, a, b => a ≤ b

/-- The data that a predicate is about. -/
structure Valuation (D : Type u) [LinearOrder D] where
  timeline : Timeline
  instant : Int ↪o D
  value : Value → D
  element : String → D
  property : String → String → D

namespace Valuation

variable {D : Type u} [LinearOrder D]

/-- The value of an operand. -/
def operand (v : Valuation D) : Operand → D
  | .value a => v.value a
  | .element name => v.element name
  | .property name key => v.property name key
  | .time p => v.instant (p.value v.timeline)

/-- Whether a comparison is true of the data. -/
def Satisfies (v : Valuation D) (c : Comparison) : Prop :=
  c.op.Relates (v.operand c.lhs) (v.operand c.rhs)

/-- The valuation on which the time fields of the whole pattern come from those of its variables. -/
def ofPattern (names : List String) (v : Valuation D) : Valuation D :=
  { v with timeline := v.timeline.ofPattern names }

end Valuation

/-- The truth of comparisons as far as times and given values fix it: time points have integers as
their values, two given values compare as they do without any data, and everything else is free. -/
structure Reading where
  timeline : Timeline
  free : Comparison → Prop

namespace Reading

def Satisfies (r : Reading) (c : Comparison) : Prop :=
  match c.lhs, c.rhs with
  | .time p, .time q => c.op.Relates (p.value r.timeline) (q.value r.timeline)
  | .value v, .value w => (c.op.verdictOnValues v w).elim (r.free c) (· = true)
  | _, _ => r.free c

end Reading
end TemporalPattern
