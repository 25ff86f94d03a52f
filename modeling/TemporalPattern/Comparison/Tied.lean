import TemporalPattern.Comparison.Basic
import TemporalPattern.TimePoint.Bounds

/-!
# Tied comparisons

The comparisons whose verdict depends on which operand comes first. Their bounds leave the same
value to both sides; that decides an order between them only from the left.
-/

namespace TemporalPattern

/-- Whether one value only is left. -/
def Bounds.IsSingle (b : Bounds) : Prop :=
  b.upper.isSome ∧ b.lower = b.upper

instance (b : Bounds) : Decidable b.IsSingle :=
  inferInstanceAs (Decidable (_ ∧ _))

/-- Bounds leave the same single value to two times, not both of which are evaluated. -/
def TimePoint.Coincide (p q : TimePoint) : Prop :=
  (p.evaluate = none ∨ q.evaluate = none) ∧ p.bounds.IsSingle ∧ q.bounds = p.bounds

instance (p q : TimePoint) : Decidable (p.Coincide q) :=
  inferInstanceAs (Decidable (_ ∧ _ ∧ _))

namespace Comparison

/-- Whether a comparison by order is decided by bounds that leave the same single value to both
sides. -/
def IsTied : Comparison → Prop
  | ⟨.time p, op, .time q⟩ => p.Coincide q ∧ op ≠ .eq ∧ op ≠ .neq
  | _ => False

instance : DecidablePred IsTied
  | ⟨.time p, op, .time q⟩ =>
    inferInstanceAs (Decidable (p.Coincide q ∧ op ≠ .eq ∧ op ≠ .neq))
  | ⟨.value _, _, _⟩ | ⟨.element _, _, _⟩ | ⟨.property _ _, _, _⟩ | ⟨.time _, _, .value _⟩
  | ⟨.time _, _, .element _⟩ | ⟨.time _, _, .property _ _⟩ => inferInstanceAs (Decidable False)

end Comparison
end TemporalPattern
