import TemporalPattern.Proofs.IntervalPoints
import TemporalPattern.Proofs.References

/-!
# Times of the whole pattern

Resolving fails only where a predicate has such a time and the pattern no variables.  A resolved
predicate has none left, so it is not changed again.  Its meaning depends only on which variables
there are: every start is read as their latest and every stop as their earliest one.
-/

namespace TemporalPattern

universe u

namespace Predicate

variable {names names' : List String} {p q q' : Predicate}

theorem resolve_eq_error_iff {e : Error} :
    p.resolve names = .error e ↔ e = .noPatternVariables ∧ p.isGlobal ∧ names = [] := by
  constructor
  · intro h
    obtain ⟨hnil, hglobal⟩ := exists_resolve_eq_error_iff.1 ⟨e, h⟩
    exact ⟨failsOnly_resolve names p e h, hglobal, hnil⟩
  · rintro ⟨rfl, hglobal, hnil⟩
    obtain ⟨e, h⟩ := exists_resolve_eq_error_iff.2 ⟨hnil, hglobal⟩
    rw [h, failsOnly_resolve names p e h]

theorem resolve_of_resolve (hnames : globalVariable ∉ names) (h : p.resolve names = .ok q) :
    q.resolve names' = .ok q :=
  resolve_of_not_isGlobal (not_isGlobal_resolve hnames h)

theorem exists_resolve_congr (hsame : ∀ name, name ∈ names' ↔ name ∈ names)
    (h : p.resolve names = .ok q) : ∃ q', p.resolve names' = .ok q' := by
  rw [exists_resolve_iff]
  intro hnil
  have hnil' : names = [] := List.eq_nil_iff_forall_not_mem.2 fun name hname => by
    simp [hnil, ← hsame] at hname
  exact exists_resolve_iff.1 ⟨q, h⟩ hnil'

theorem holds_resolve_congr {D : Type u} [LinearOrder D]
    (hsame : ∀ name, name ∈ names' ↔ name ∈ names) (h : p.resolve names = .ok q)
    (h' : p.resolve names' = .ok q') (v : Valuation D) :
    q'.Holds v.Satisfies ↔ q.Holds v.Satisfies := by
  have htimeline : v.timeline.ofPattern names' = v.timeline.ofPattern names :=
    Timeline.ofPattern_congr hsame v.timeline
  rw [holds_resolve h', holds_resolve h, Valuation.ofPattern, Valuation.ofPattern, htimeline]

/-- Resolving reads the times of the whole pattern as those of the intersection of its elements and
changes nothing else. -/
theorem resolving_reads_intersection (hnames : globalVariable ∉ names) (p : Predicate) :
    (∀ e, p.resolve names = .error e ↔ e = .noPatternVariables ∧ p.isGlobal ∧ names = []) ∧
    (¬ p.isGlobal → p.resolve names = .ok p) ∧
    ∀ q, p.resolve names = .ok q →
      ¬ isGlobal q ∧ (∀ others, q.resolve others = .ok q) ∧
      ∀ names', (∀ name, name ∈ names' ↔ name ∈ names) →
        ∃ q', p.resolve names' = .ok q' ∧
          ∀ {D : Type u} [LinearOrder D] (v : Valuation D),
            (q.Holds v.Satisfies ↔ p.Holds (v.ofPattern names).Satisfies) ∧
            (q'.Holds v.Satisfies ↔ q.Holds v.Satisfies) := by
  refine ⟨fun _ => resolve_eq_error_iff, resolve_of_not_isGlobal, ?_⟩
  intro q hq
  refine ⟨not_isGlobal_resolve hnames hq, fun _ => resolve_of_resolve hnames hq, ?_⟩
  intro names' hsame
  obtain ⟨q', hq'⟩ := exists_resolve_congr hsame hq
  exact ⟨q', hq', fun v => ⟨holds_resolve hq v, holds_resolve_congr hsame hq hq' v⟩⟩

/-- A length from the start of the pattern to its stop, but not beyond a given time, in a pattern
that lists a variable twice. -/
theorem resolving_reads_intersection_of_repeated_variable :
    let start : TimePoint := .selector globalVariable Axis.valid.start
    let stop : TimePoint := .aggregate .min [.selector globalVariable Axis.valid.stop, .literal 50]
    let p : Predicate := .not (.atom ⟨.time (.duration start stop), .lte, .time (.constant 5)⟩)
    globalVariable ∉ ["a", "b"] ∧ p.resolve [] = .error .noPatternVariables ∧
    ∃ q q', p.resolve ["a", "b"] = .ok q ∧ p.resolve ["b", "a", "b"] = .ok q' ∧ q' ≠ q ∧
      ¬ isGlobal q ∧ (∀ others, q.resolve others = .ok q) ∧
      ∀ t : Timeline, q'.Holds (Valuation.ofTimeline t).Satisfies ↔
        ¬ min (min (t "a" Axis.valid.stop) (t "b" Axis.valid.stop)) 50 -
          max (t "a" Axis.valid.start) (t "b" Axis.valid.start) ≤ 5 := by
  intro start stop p
  have hnames : globalVariable ∉ ["a", "b"] := by decide
  obtain ⟨-, -, hresolved⟩ := resolving_reads_intersection hnames p
  obtain ⟨hlocal, hagain, hsame⟩ := hresolved _ rfl
  obtain ⟨q', hq', hholds⟩ := hsame ["b", "a", "b"] (by simp)
  refine ⟨hnames, rfl, _, q', rfl, hq', ?_, hlocal, hagain, ?_⟩
  · cases hq'
    intro hequal
    exact absurd (congrArg (List.length ∘ references) hequal) (by decide)
  · intro t
    exact (hholds _).2.trans (hholds _).1

end Predicate
end TemporalPattern
