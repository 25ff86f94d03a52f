import TemporalPattern.Filter.Elaborate
import TemporalPattern.Proofs.Resolution
import TemporalPattern.Proofs.Unfolding

/-!
# Normalizing predicates

Selectors of the whole pattern are resolved and then aggregates unfolded.  Each of the two steps is
left out where there is nothing to do; since it would change nothing there, normalizing is the one
step after the other in every case.
-/

namespace TemporalPattern

universe u

variable {D : Type u} [LinearOrder D] {names : List String}

/-! ## Time points alone have an unfolding -/

theorem Operand.isAggregate_of_not_isTemporal {operand : Operand} (h : ¬ operand.isTemporal) :
    operand.isAggregate = false := by
  cases operand with
  | time p => exact absurd rfl h
  | value _ | element _ | property _ _ => rfl

namespace Predicate

/-- Where no aggregate is compared there is nothing to unfold. -/
theorem unfoldAggregates_of_atomic {p : Predicate}
    (h : ∀ c ∈ p.atoms, c.lhs.isAggregate = false ∧ c.rhs.isAggregate = false) :
    unfoldAggregates p = .ok p := by
  apply Formula.substitute_atom
  intro c hc
  exact Comparison.unfoldAggregates_of_none (Comparison.expand?_eq_none.2 (h c hc))

theorem unfoldAggregates_of_not_isTemporal {p : Predicate} (h : ¬ isTemporal p) :
    unfoldAggregates p = .ok p := by
  apply unfoldAggregates_of_atomic
  intro c hc
  have hc' : ¬ c.isTemporal := fun htemporal => h (List.any_eq_true.2 ⟨c, hc, htemporal⟩)
  rw [Comparison.isTemporal, Bool.or_eq_true, not_or] at hc'
  exact ⟨Operand.isAggregate_of_not_isTemporal hc'.1, Operand.isAggregate_of_not_isTemporal hc'.2⟩

/-! ## Both steps -/

/-- Both steps are left out only where they change nothing. -/
theorem normalize_eq (names : List String) (p : Predicate) :
    normalize names p = resolve names p >>= unfoldAggregates := by
  have hunfold : (fun r : Predicate => if isTemporal r then unfoldAggregates r else pure r) =
      unfoldAggregates := by
    funext r
    by_cases htemporal : isTemporal r
    · rw [if_pos htemporal]
    · rw [if_neg htemporal, unfoldAggregates_of_not_isTemporal htemporal]
      rfl
  unfold normalize
  by_cases hglobal : isGlobal p
  · rw [if_pos hglobal]
    exact congrArg (resolve names p >>= ·) hunfold
  · rw [if_neg hglobal, resolve_of_not_isGlobal hglobal]
    exact congrArg (Except.ok p >>= ·) hunfold

theorem holds_normalize {p q : Predicate} (h : normalize names p = .ok q) (v : Valuation D) :
    q.Holds v.Satisfies ↔ p.Holds (v.ofPattern names).Satisfies := by
  rw [normalize_eq, bind_eq_ok] at h
  obtain ⟨r, hr, hq⟩ := h
  rw [holds_unfoldAggregates hq, holds_resolve hr]

end Predicate

namespace Filter

theorem compile_eq_ok {s : Scope} {f : Filter} {n : NormalForm} :
    f.compile s = .ok n ↔
      ∃ p, f.elaborate s = .ok p ∧ ∃ q, Predicate.normalize s.names p = .ok q ∧ q.toCnf = n := by
  simp only [compile, bind_eq_ok, pure_eq_ok]

end Filter

end TemporalPattern
