import TemporalPattern.Proofs.Bounds
import TemporalPattern.Proofs.Terms
import TemporalPattern.TimePoint.Regular

/-!
# Bounds of terms

The bounds of a term are right on all data on which the term is regular.  On other data they may not
be: a shift to before the epoch is overlooked, and the least word stands for all values below it.
-/

namespace TemporalPattern

namespace Timeline

theorem fromEpoch_epoch : epoch.FromEpoch := by
  have hword : (0 : Int) ≤ Millis.greatest := by decide
  exact fun _ _ => ⟨Int.le_refl 0, hword⟩

end Timeline

theorem TimePoint.ordered_bounds (p : TimePoint) : p.bounds.Ordered := by
  cases p with
  | literal time => exact Bounds.ordered_capped _ _
  | selector name field => exact Bounds.ordered_unknown
  | constant length => exact Bounds.ordered_capped _ _
  | duration start stop => exact Bounds.ordered_capped _ _
  | plus point length => exact Bounds.ordered_capped _ _
  | aggregate choice args => exact Bounds.ordered_aggregate choice _

namespace TimePoint

variable {p : TimePoint} {t : Timeline}

theorem contains_bounds (hp : p.Regular t) : p.bounds.Contains (p.value t) := by
  induction hp with
  | literal time => exact Bounds.contains_exact time
  | selector name field => exact Bounds.contains_unknown _
  | constant length => exact Bounds.contains_exact length
  | @duration start stop _ _ hleast hsign ihstart ihstop =>
      exact Bounds.contains_difference ihstart ihstop hleast hsign
  | plus length _ hleast ih => exact Bounds.contains_shift ih hleast
  | aggregate choice _ ih =>
      rw [bounds, boundsEach_eq, value_aggregate]
      exact Bounds.contains_aggregate choice ih

/-- On regular terms a known lower bound is not above the value, and an upper bound is not below it
unless it stands for having none. -/
theorem bounds_hold_on_regular_terms (hp : p.Regular t) :
    (∀ l, p.knownLowerBound = some l → l.toInt ≤ p.value t) ∧
    (p.upperBound ≠ Int64.maxValue → p.value t ≤ p.upperBound.toInt) := by
  have hbounds := contains_bounds hp
  refine ⟨hbounds.lower, ?_⟩
  intro hu
  cases hupper : p.bounds.upper with
  | none => simp [upperBound, hupper] at hu
  | some u =>
      rw [upperBound, hupper]
      exact hbounds.upper u hupper

theorem bounds_hold_on_regular_terms_of_shifted_start :
    let t : Timeline := fun _ _ => 60
    let later : TimePoint := .plus (.selector "a" ⟨.valid, .start⟩) 5
    let start : TimePoint := .aggregate .min [later, .literal 100]
    let late : TimePoint := .aggregate .max [.selector "b" ⟨.valid, .stop⟩, .literal 250]
    let stop : TimePoint := .aggregate .min [late, .literal 300]
    let p : TimePoint := .plus (.duration start stop) (-50)
    p.knownLowerBound = some 100 ∧ p.upperBound = 250 ∧ p.value t = 135 ∧
    (∀ l, p.knownLowerBound = some l → l.toInt ≤ p.value t) ∧
    (p.upperBound ≠ Int64.maxValue → p.value t ≤ p.upperBound.toInt) := by
  intro t later start late stop p
  have hlater : later.Regular t := .plus 5 (.selector _ _) (by decide)
  have hstart : start.Regular t := by
    apply Regular.aggregate
    simp [hlater, Regular.literal]
  have hlate : late.Regular t := by
    apply Regular.aggregate
    simp [Regular.selector, Regular.literal]
  have hstop : stop.Regular t := by
    apply Regular.aggregate
    simp [hlate, Regular.literal]
  -- no lower bound of the start is known, but it is not negative
  have hlength : Regular t (.duration start stop) :=
    .duration hstart hstop (by decide) (by decide)
  have hp : p.Regular t := .plus (-50) hlength (by decide)
  exact ⟨by decide, by decide, by decide, bounds_hold_on_regular_terms hp⟩

/-- A shift to before the epoch is not looked at, so a length of up to 105 milliseconds has the
upper bound 100; and the least word counts as a lower bound of the millisecond before it. -/
theorem bounds_fail_on_shifted_points :
    let p : TimePoint := .duration (.plus (.selector "a" ⟨.valid, .start⟩) (-5)) (.literal 100)
    let q : TimePoint := .plus (.literal Int64.minValue) (-1)
    p.Defined ∧ q.Defined ∧ Timeline.epoch.FromEpoch ∧
    (p.upperBound ≠ Int64.maxValue ∧ ¬ p.value .epoch ≤ p.upperBound.toInt) ∧
    ∃ l, q.knownLowerBound = some l ∧ ¬ l.toInt ≤ q.value .epoch :=
  ⟨⟨trivial, trivial⟩, trivial, Timeline.fromEpoch_epoch, ⟨by decide, by decide⟩,
    Int64.minValue, by decide, by decide⟩

end TimePoint
end TemporalPattern
