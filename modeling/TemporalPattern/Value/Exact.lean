import Mathlib.Algebra.Order.Field.Rat
import Mathlib.Order.WithBotTop
import TemporalPattern.Comparison.Verdict

/-!
# Exact values of numbers

The mathematical value of a numeric value: a rational number, or one of the two infinities.
-/

namespace TemporalPattern

/-- The rational numbers between two infinities. -/
abbrev ExtendedRat := WithBotTop ℚ

def Unpacked.number? : Unpacked → Option ExtendedRat
  | nan => none
  | infinite negative => some (if negative then ⊥ else ⊤)
  | finite negative significand exponent =>
    let magnitude : ℚ := significand * 2 ^ exponent
    some ((if negative then -magnitude else magnitude : ℚ) : ExtendedRat)

/-- The exact value of a number other than a NaN. -/
def Value.number? : Value → Option ExtendedRat
  | int32 n => some ((n.toInt : ℚ) : ExtendedRat)
  | int64 n => some ((n.toInt : ℚ) : ExtendedRat)
  | float32 x => x.unpack.number?
  | float64 x => x.unpack.number?
  | text _ | bool _ => none

/-- Whether a 64-bit integer is not the same number as a floating point number, but is converted to
that number. -/
def Value.RoundsTo (v w : Value) : Prop :=
  v.type = .int64 ∧ w.type ∈ [.float32, .float64] ∧ v.number? ≠ w.number? ∧
    (v.toFloat64?.bind fun x => x.unpack.number?) = w.number?

instance (v w : Value) : Decidable (v.RoundsTo w) :=
  inferInstanceAs (Decidable (_ ∧ _))

/-- The order in which two values are compared, and by which every operator is decided. -/
structure Value.IsOrdered (v w : Value) (order : Ordering) : Prop where
  compare : v.compare? w = some order
  evaluate : ∀ op, Comparison.evaluate ⟨.value v, op, .value w⟩ = some (op.holds order)

end TemporalPattern
