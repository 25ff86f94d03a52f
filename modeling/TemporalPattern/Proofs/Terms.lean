import Mathlib.Data.List.Basic
import TemporalPattern.Filter.Basic
import TemporalPattern.TimePoint.Timeline

/-!
# Induction on terms

The arguments of an aggregate form a list, so the principles that come with the types speak of lists
of terms as well.  These give the hypothesis for every argument instead.
-/

namespace TemporalPattern

@[elab_as_elim]
theorem TimeTerm.induction {motive : TimeTerm → Prop}
    (literal : ∀ text, motive (.literal text))
    (selector : ∀ name? field, motive (.selector name? field))
    (aggregate : ∀ choice args, (∀ t ∈ args, motive t) → motive (.aggregate choice args))
    (t : TimeTerm) : motive t :=
  @TimeTerm.rec motive (fun ts => ∀ t ∈ ts, motive t) literal selector aggregate (by simp)
    (fun _ _ ht hts => List.forall_mem_cons.2 ⟨ht, hts⟩) t

namespace TimePoint

@[elab_as_elim]
theorem induction {motive : TimePoint → Prop}
    (literal : ∀ time, motive (.literal time))
    (selector : ∀ name field, motive (.selector name field))
    (constant : ∀ length, motive (.constant length))
    (duration : ∀ start stop, motive start → motive stop → motive (.duration start stop))
    (plus : ∀ point length, motive point → motive (.plus point length))
    (aggregate : ∀ choice args, (∀ p ∈ args, motive p) → motive (.aggregate choice args))
    (p : TimePoint) : motive p :=
  @TimePoint.rec motive (fun ps => ∀ p ∈ ps, motive p) literal selector constant duration plus
    aggregate (by simp) (fun _ _ hp hps => List.forall_mem_cons.2 ⟨hp, hps⟩) p

theorem value_aggregate (t : Timeline) (choice : Aggregate) (args : List TimePoint) :
    (aggregate choice args).value t = choice.choose (args.map (·.value t)) := by
  rw [value, valueEach_eq]

/-! ## Selectors of the whole pattern -/

theorem isGlobal_selector {name : String} {field : TimeField} :
    (selector name field).isGlobal ↔ name = globalVariable := by
  simp [isGlobal, selectors]

theorem isGlobal_duration {start stop : TimePoint} :
    (duration start stop).isGlobal ↔ start.isGlobal ∨ stop.isGlobal := by
  simp [isGlobal, selectors]

theorem isGlobal_plus {point : TimePoint} {length : Millis} :
    (plus point length).isGlobal ↔ point.isGlobal := by
  simp [isGlobal, selectors]

theorem isGlobal_aggregate {choice : Aggregate} {args : List TimePoint} :
    (aggregate choice args).isGlobal ↔ ∃ p ∈ args, p.isGlobal := by
  simp only [isGlobal, selectors, selectorsEach_eq, List.any_flatMap, List.any_eq_true]

end TimePoint
end TemporalPattern
