import TemporalPattern.Predicate.Forms
import TemporalPattern.Proofs.Extremes
import TemporalPattern.Proofs.Formula
import TemporalPattern.Proofs.Terms

/-!
# Expanding one aggregate

An expansion replaces an aggregate by its arguments and keeps the operand it is compared with.  It
compares every argument with that operand, means what the comparison of the aggregate means, and
fails only if there are no arguments.
-/

namespace TemporalPattern

universe u

/-! ## Operands that are aggregates -/

namespace Operand

theorem not_reachesEmpty {operand : Operand} (h : operand.isAggregate = false) :
    ¬ operand.ReachesEmpty := by
  intro hreach
  cases operand with
  | time p =>
      have hp : p.ReachesEmpty := hreach
      cases hp <;> simp [isAggregate, TimePoint.isAggregate] at h
  | _ => exact hreach

theorem reachesEmpty_aggregate {choice : Aggregate} {args : List TimePoint} :
    (time (.aggregate choice args)).ReachesEmpty ↔
      args = [] ∨ ∃ p ∈ args, (time p).ReachesEmpty := by
  constructor
  · intro h
    have hp : (TimePoint.aggregate choice args).ReachesEmpty := h
    cases hp with
    | empty => exact .inl rfl
    | through hmem hreach => exact .inr ⟨_, hmem, hreach⟩
  · rintro (rfl | ⟨p, hmem, hreach⟩)
    · exact TimePoint.ReachesEmpty.empty choice
    · exact TimePoint.ReachesEmpty.through hmem hreach

theorem mem_mentions_aggregate {choice : Aggregate} {args : List TimePoint} {name : String} :
    name ∈ (time (.aggregate choice args)).mentions ↔ ∃ p ∈ args, name ∈ (time p).mentions := by
  simp only [mentions, TimePoint.mentions, TimePoint.selectors, TimePoint.selectorsEach_eq,
    List.mem_filter, List.mem_map, List.mem_flatMap]
  constructor
  · rintro ⟨⟨s, ⟨p, hp, hs⟩, hname⟩, hlocal⟩
    exact ⟨p, hp, ⟨s, hs, hname⟩, hlocal⟩
  · rintro ⟨p, hp, ⟨s, hs, hname⟩, hlocal⟩
    exact ⟨⟨s, ⟨p, hp, hs⟩, hname⟩, hlocal⟩

end Operand

/-! ## One expansion of an aggregate -/

namespace Aggregate

variable {choice : Aggregate} {args : List TimePoint} {op : Comparator} {operand : Operand}
  {f : Predicate}

theorem selections_eq_nil {α : Type} {as : List α} : selections as = [] ↔ as = [] := by
  cases as <;> simp [selections]

theorem expand?_eq_none : choice.expand? args op operand = none ↔ args = [] := by
  unfold expand?
  split
  case h_1 => simp [selections_eq_nil]
  case h_2 => simp [selections_eq_nil]
  case h_3 => split <;> simp

theorem expand_eq_error {e : Error} :
    choice.expand args op operand = .error e ↔ args = [] ∧ e = .emptyAggregate := by
  unfold expand
  split
  case h_1 g hg =>
    have hargs : args ≠ [] := fun hargs => by simp [expand?_eq_none.2 hargs] at hg
    simp [hargs]
  case h_2 hg => simp [expand?_eq_none.1 hg, eq_comm]

theorem ne_nil_of_expand (h : choice.expand args op operand = .ok f) : args ≠ [] := by
  intro hargs
  rw [expand_eq_error.2 ⟨hargs, rfl⟩] at h
  exact absurd h (by simp)

/-- Every argument is compared with the operand. -/
theorem exists_mem_atoms_expand (h : choice.expand args op operand = .ok f) {p : TimePoint}
    (hp : p ∈ args) : ∃ c ∈ f.atoms, c.lhs = .time p ∧ c.rhs = operand := by
  refine ⟨⟨.time p, op, operand⟩, ?_, rfl, rfl⟩
  rcases atoms_expand? (expand_eq_ok.1 h) with ⟨rival, hatoms⟩ | hatoms
  · obtain ⟨others, hs⟩ := exists_mem_selections hp
    rw [hatoms]
    exact List.mem_flatMap.2 ⟨(p, others), hs, List.mem_cons_self⟩
  · rw [hatoms]
    exact List.mem_map_of_mem hp

variable {D : Type u} [LinearOrder D]

theorem holds_compareWith (v : Valuation D) (p : TimePoint) (op : Comparator)
    (operand : Operand) : (p.compareWith op operand).Holds v.Satisfies ↔
      op.Relates (v.instant (p.value v.timeline)) (v.operand operand) :=
  Iff.rfl

theorem holds_compareWith_time (v : Valuation D) (p : TimePoint) (op : Comparator)
    (q : TimePoint) : (p.compareWith op (.time q)).Holds v.Satisfies ↔
      op.Relates (p.value v.timeline) (q.value v.timeline) :=
  Comparator.relates_instant v.instant op _ _

/-- An argument is equal to the operand and dominates the others. -/
theorem holds_dominant (v : Valuation D) (p : TimePoint) (others : List TimePoint) :
    ((p.compareWith .eq operand).conjoin
        (others.map fun q => p.compareWith choice.dominates (.time q))).Holds v.Satisfies ↔
      v.instant (p.value v.timeline) = v.operand operand ∧
        ∀ q ∈ others, choice.dominates.Relates (p.value v.timeline) (q.value v.timeline) := by
  rw [Formula.holds_conjoin, List.forall_mem_map]
  simp only [holds_compareWith_time]
  rfl

/-- An argument differs from the operand or is dominated by another one. -/
theorem holds_dominated (v : Valuation D) (p : TimePoint) (others : List TimePoint) :
    ((p.compareWith .neq operand).disjoin
        (others.map fun q => p.compareWith choice.dominates.inverse (.time q))).Holds
          v.Satisfies ↔
      ¬ (v.instant (p.value v.timeline) = v.operand operand ∧
        ∀ q ∈ others, choice.dominates.Relates (p.value v.timeline) (q.value v.timeline)) := by
  rw [Formula.holds_disjoin]
  simp only [List.mem_map, exists_exists_and_eq_and, holds_compareWith_time,
    Comparator.relates_inverse]
  rw [not_and_or, holds_compareWith, Comparator.Relates]
  push Not
  rfl

/-- An expansion means the comparison of the aggregate. -/
theorem holds_expand (h : choice.expand args op operand = .ok f) (v : Valuation D) :
    f.Holds v.Satisfies ↔
      op.Relates (v.operand (.time (.aggregate choice args))) (v.operand operand) := by
  have hargs := ne_nil_of_expand h
  have hvalue : v.operand (.time (.aggregate choice args)) =
      v.instant (choice.choose (args.map (·.value v.timeline))) := by
    rw [Valuation.operand, TimePoint.value_aggregate]
  rw [expand_eq_ok] at h
  unfold expand? at h
  rw [hvalue]
  split at h
  case h_1 =>
    rw [Formula.holds_disjunction h, Comparator.Relates, choose_eq_iff_exists_selection hargs]
    simp only [List.mem_map, exists_exists_and_eq_and, holds_dominant]
  case h_2 =>
    -- the opposite of the case before, argument by argument
    rw [Formula.holds_conjunction h, List.forall_mem_map, Comparator.Relates, ne_eq,
      choose_eq_iff_exists_selection hargs]
    simp only [holds_dominated, not_exists, not_and]
  case h_3 heq hneq =>
    split at h
    case isTrue hex =>
      rw [Formula.holds_disjunction h, relates_choose_iff_exists hex hargs]
      simp only [List.mem_map, exists_exists_and_eq_and, holds_compareWith]
    case isFalse hex =>
      rw [Formula.holds_conjunction h, List.forall_mem_map,
        relates_choose_iff_forall heq hneq hex hargs]
      simp only [holds_compareWith]

end Aggregate

end TemporalPattern
