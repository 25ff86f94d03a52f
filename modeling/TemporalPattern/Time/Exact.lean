import TemporalPattern.Time.Unit

/-!
# Exact lengths

The lengths that components of mixed units stand for, as integers.
-/

namespace TemporalPattern

/-- The sum of words as an integer. -/
def Millis.exactSum (terms : List Millis) : Int :=
  terms.foldr (fun t n => t.toInt + n) 0

namespace Components

/-- The amounts of the components, that of the largest unit first. -/
def amounts (c : Components) : List Int :=
  [c.days.toInt, c.hours.toInt, c.minutes.toInt, c.seconds.toInt, c.millis.toInt]

/-- The lengths of the components as integers, those of the largest unit first. -/
def exactParts (c : Components) : List Int :=
  [86400000 * c.days.toInt, 3600000 * c.hours.toInt, 60000 * c.minutes.toInt,
    1000 * c.seconds.toInt, c.millis.toInt]

/-- Whether every component has its length and every sum on the way is there, and all of them are
the exact ones. -/
def AddsExactly (c : Components) : Prop :=
  ∃ parts, c.parts = .ok parts ∧ parts.map Int64.toInt = c.exactParts ∧
    ∀ k, ∃ sum, Millis.sum? (parts.take k) = some sum ∧
      sum.toInt = Millis.exactSum (parts.take k)

end Components
end TemporalPattern
