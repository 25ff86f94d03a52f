import TemporalPattern.Comparison.Valuation
import TemporalPattern.Interval.Relation

/-!
# Truth of intervals and relations

Whether the data meets the conditions of an interval, and whether a relation is true of it.
-/

namespace TemporalPattern

universe u

variable {D : Type u} [LinearOrder D]

/-- Whether the data meets all conditions of a value. -/
def Constrained.Met {α : Type} (v : Valuation D) (c : Constrained α) : Prop :=
  ∀ p ∈ c.constraints, p.Holds v.Satisfies

namespace IntervalRelation

/-- Whether a relation accepts the arguments and is true of the data. The interval that it is asked
about has no conditions of its own. -/
def Holds (v : Valuation D) (relation : IntervalRelation) (i : Interval) (args : List Argument) :
    Prop :=
  ∃ p, relation.apply (.free i) args = .ok p ∧ p.Holds v.Satisfies

/-- Whether a relation holds between two intervals without conditions. -/
def Relates (v : Valuation D) (relation : IntervalRelation) (i j : Interval) : Prop :=
  relation.Holds v i [.interval (.free j)]

end IntervalRelation
end TemporalPattern
