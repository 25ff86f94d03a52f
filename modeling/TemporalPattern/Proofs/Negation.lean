import TemporalPattern.Proofs.Unfolding

/-!
# Opposite comparisons

The opposite of a comparison is decided by the same values and bounds, the other way.  It unfolds to
the dual of what the comparison unfolds to: where one argument of an aggregate is enough for the
comparison, every argument has to satisfy the opposite one.
-/

namespace TemporalPattern

/-! ## Verdicts -/

namespace Comparator

variable (op : Comparator)

theorem some_holds_inverse (order : Ordering) :
    some (op.inverse.holds order) = Verdict.not (some (op.holds order)) := by
  rw [holds_inverse]
  rfl

theorem verdictOnIncomparable_inverse :
    op.inverse.verdictOnIncomparable = .not op.verdictOnIncomparable := by
  cases op <;> rfl

theorem verdictOnAtMost_inverse : op.inverse.verdictOnAtMost = .not op.verdictOnAtMost := by
  cases op <;> rfl

theorem verdictOnAtLeast_inverse : op.inverse.verdictOnAtLeast = .not op.verdictOnAtLeast := by
  cases op <;> rfl

/-- Values without an order, such as a NaN, leave both comparisons open. -/
theorem verdictOnValues_inverse (v w : Value) :
    op.inverse.verdictOnValues v w = .not (op.verdictOnValues v w) := by
  unfold verdictOnValues
  split
  case isTrue =>
    cases v.compare? w with
    | none => rfl
    | some order => exact op.some_holds_inverse order
  case isFalse => exact op.verdictOnIncomparable_inverse

/-- The rules on bounds are tried in the same sequence and each one is turned over. -/
theorem verdictOnBounds_inverse (a b : Bounds) :
    op.inverse.verdictOnBounds a b = .not (op.verdictOnBounds a b) := by
  simp only [verdictOnBounds, apply_ite Verdict.not, some_holds_inverse, verdictOnAtMost_inverse,
    verdictOnAtLeast_inverse]
  rfl

theorem verdictOnTimes_inverse (p q : TimePoint) :
    op.inverse.verdictOnTimes p q = .not (op.verdictOnTimes p q) := by
  unfold verdictOnTimes
  split
  case h_1 s t _ _ => exact op.some_holds_inverse (compare s t)
  case h_2 => exact op.verdictOnBounds_inverse p.bounds q.bounds

end Comparator

theorem Comparison.evaluate_negate (c : Comparison) : c.negate.evaluate = .not c.evaluate := by
  obtain ⟨lhs, op, rhs⟩ := c
  cases lhs with
  | value v =>
      cases rhs with
      | value w => exact op.verdictOnValues_inverse v w
      | time _ | element _ | property _ _ => rfl
  | time p =>
      cases rhs with
      | time q => exact op.verdictOnTimes_inverse p q
      | value _ | element _ | property _ _ => rfl
  | element _ | property _ _ => cases rhs <;> rfl

/-! ## Duals of formulas -/

namespace Formula

variable {α ε : Type}

/-- The opposite of a formula with the negation pushed to its atoms, which an operation on atoms
replaces by their opposites.  Conjunction and disjunction change places. -/
def dual (opposite : α → α) : Formula α → Formula α
  | .atom a => .atom (opposite a)
  | .and p q => .or (p.dual opposite) (q.dual opposite)
  | .or p q => .and (p.dual opposite) (q.dual opposite)
  | .xor p q => .not (.xor (p.dual opposite) (q.dual opposite))
  | .not p => .not (p.dual opposite)

variable {opposite : α → α}

theorem evaluate_dual {verdict : α → Verdict} (h : ∀ a, verdict (opposite a) = .not (verdict a))
    (p : Formula α) : (p.dual opposite).evaluate verdict = .not (p.evaluate verdict) := by
  induction p with
  | atom a => exact h a
  | not p ih => rw [dual, evaluate, evaluate, ih]
  | and p q hp hq => rw [dual, evaluate, evaluate, hp, hq, Verdict.not_and]
  | or p q hp hq => rw [dual, evaluate, evaluate, hp, hq, Verdict.not_or]
  | xor p q hp hq => rw [dual, evaluate, evaluate, evaluate, hp, hq, Verdict.xor_not_not]

theorem dual_conjoin (p : Formula α) (conditions : List (Formula α)) :
    (p.conjoin conditions).dual opposite =
      (p.dual opposite).disjoin (conditions.map (dual opposite)) := by
  induction conditions generalizing p with
  | nil => rfl
  | cons q qs ih => exact ih (p.and q)

theorem dual_disjoin (p : Formula α) (alternatives : List (Formula α)) :
    (p.disjoin alternatives).dual opposite =
      (p.dual opposite).conjoin (alternatives.map (dual opposite)) := by
  induction alternatives generalizing p with
  | nil => rfl
  | cons q qs ih => exact ih (p.or q)

theorem map_dual_conjunction (ps : List (Formula α)) :
    (conjunction ps).map (dual opposite) = disjunction (ps.map (dual opposite)) := by
  cases ps with
  | nil => rfl
  | cons q qs => exact congrArg some (dual_conjoin q qs)

theorem map_dual_disjunction (ps : List (Formula α)) :
    (disjunction ps).map (dual opposite) = conjunction (ps.map (dual opposite)) := by
  cases ps with
  | nil => rfl
  | cons q qs => exact congrArg some (dual_disjoin q qs)

/-- Replacing the opposite of every atom by the dual of its replacement gives the dual of the
result, and the same error. -/
theorem substitute_dual {p : Formula α} {g : α → Except ε (Formula α)}
    (h : ∀ a ∈ p.atoms, g (opposite a) = (g a).map (dual opposite)) :
    (p.dual opposite).substitute (fun a _ => g a) =
      (p.substitute fun a _ => g a).map (dual opposite) := by
  induction p with
  | atom a => exact h a (List.mem_singleton_self a)
  | not p ih =>
      simp only [dual, substitute, ih h]
      cases p.substitute fun a _ => g a <;> rfl
  | and p q hp hq | or p q hp hq | xor p q hp hq =>
      obtain ⟨hleft, hright⟩ := List.forall_mem_append.1 h
      simp only [dual, substitute, hp hleft, hq hright]
      cases p.substitute fun a _ => g a with
      | error e => rfl
      | ok p' => cases q.substitute fun a _ => g a <;> rfl

end Formula

/-! ## Unfolding -/

theorem TimePoint.dual_compareWith (p : TimePoint) (op : Comparator) (operand : Operand) :
    Formula.dual Comparison.negate (p.compareWith op operand) = p.compareWith op.inverse operand :=
  rfl

namespace Aggregate

variable (choice : Aggregate) (args : List TimePoint) {op : Comparator} (operand : Operand)

theorem expand?_of_order (heq : op ≠ .eq) (hneq : op ≠ .neq) :
    choice.expand? args op operand =
      if choice.isExistential op then Formula.disjunction (args.map (·.compareWith op operand))
      else Formula.conjunction (args.map (·.compareWith op operand)) := by
  cases op <;> trivial

theorem expand?_inverse_of_order (heq : op ≠ .eq) (hneq : op ≠ .neq) :
    choice.expand? args op.inverse operand =
      (choice.expand? args op operand).map (Formula.dual Comparison.negate) := by
  have heq' : op.inverse ≠ .eq := fun h => hneq (by rw [← op.inverse_inverse, h]; rfl)
  have hneq' : op.inverse ≠ .neq := fun h => heq (by rw [← op.inverse_inverse, h]; rfl)
  have hatoms : args.map (·.compareWith op.inverse operand) =
      (args.map (·.compareWith op operand)).map (Formula.dual Comparison.negate) := by
    rw [List.map_map]
    rfl
  rw [expand?_of_order choice args operand heq hneq,
    expand?_of_order choice args operand heq' hneq', isExistential_inverse choice heq hneq, hatoms]
  cases choice.isExistential op with
  | true => exact (Formula.map_dual_disjunction _).symm
  | false => exact (Formula.map_dual_conjunction _).symm

/-- The expansion of the opposite comparison is the dual of the expansion. -/
theorem expand?_inverse (op : Comparator) :
    choice.expand? args op.inverse operand =
      (choice.expand? args op operand).map (Formula.dual Comparison.negate) := by
  cases op with
  | eq =>
      rw [expand?, Formula.map_dual_disjunction, List.map_map]
      refine congrArg Formula.conjunction (List.map_congr_left ?_)
      intro s _
      rw [Function.comp_apply, Formula.dual_conjoin, List.map_map]
      rfl
  | neq =>
      rw [expand?, Formula.map_dual_conjunction, List.map_map]
      refine congrArg Formula.disjunction (List.map_congr_left ?_)
      intro s _
      have hrival : choice.dominates.inverse.inverse = choice.dominates :=
        Comparator.inverse_inverse _
      rw [Function.comp_apply, Formula.dual_disjoin, List.map_map]
      simp only [Function.comp_def, TimePoint.dual_compareWith, hrival]
      rfl
  | gt | lt | gte | lte => exact expand?_inverse_of_order choice args operand nofun nofun

theorem expand_inverse (op : Comparator) :
    choice.expand args op.inverse operand =
      (choice.expand args op operand).map (Formula.dual Comparison.negate) := by
  rw [expand, expand, expand?_inverse]
  cases choice.expand? args op operand <;> rfl

end Aggregate

namespace Comparison

/-- One step of unfolding the opposite comparison is the dual of the step. -/
theorem expand?_negate (c : Comparison) :
    c.negate.expand? = c.expand?.map (Except.map (Formula.dual negate)) := by
  obtain ⟨lhs, op, rhs⟩ := c
  unfold negate expand?
  dsimp only
  split
  case h_1 choice args => exact congrArg some (choice.expand_inverse args rhs op)
  case h_2 choice args _ =>
    rw [← Comparator.inverse_converse]
    exact congrArg some (choice.expand_inverse args lhs op.converse)
  case h_3 => rfl

/-- The opposite comparison unfolds to the dual of what the comparison unfolds to. -/
theorem unfoldAggregates_negate (c : Comparison) :
    c.negate.unfoldAggregates = c.unfoldAggregates.map (Formula.dual negate) := by
  induction c using unfoldAggregates.induct with
  | case1 c hnone =>
      have hnone' : c.negate.expand? = none := by rw [expand?_negate, hnone, Option.map_none]
      rw [unfoldAggregates_of_none hnone, unfoldAggregates_of_none hnone']
      rfl
  | case2 c e herror =>
      have herror' : c.negate.expand? = some (.error e) := by
        rw [expand?_negate, herror, Option.map_some, Except.map]
      rw [unfoldAggregates_of_error herror, unfoldAggregates_of_error herror']
      rfl
  | case3 c f hf ih =>
      have hf' : c.negate.expand? = some (.ok (f.dual negate)) := by
        rw [expand?_negate, hf, Option.map_some, Except.map]
      rw [unfoldAggregates_of_ok hf, unfoldAggregates_of_ok hf']
      exact Formula.substitute_dual ih

/-- The opposite of a comparison has the opposite static verdict, as a comparison and after
unfolding, and is undecided or fails to unfold exactly where the comparison is or does. -/
theorem negation_turns_verdicts_over (c : Comparison) :
    c.negate.evaluate = .not c.evaluate ∧
    (Literal.negative c).evaluate evaluate = (Literal.positive c.negate).evaluate evaluate ∧
    ((∃ q, c.negate.unfoldAggregates = .ok q) ↔ ∃ p, c.unfoldAggregates = .ok p) ∧
    c.negate.unfoldAggregates.map Predicate.evaluate =
      c.unfoldAggregates.map fun p => .not (Predicate.evaluate p) := by
  refine ⟨c.evaluate_negate, c.evaluate_negate.symm, ?_, ?_⟩
  · rw [unfoldAggregates_negate]
    cases c.unfoldAggregates <;> simp [Except.map]
  · rw [unfoldAggregates_negate]
    cases c.unfoldAggregates with
    | error e => rfl
    | ok p => exact congrArg Except.ok (Formula.evaluate_dual evaluate_negate p)

end Comparison
end TemporalPattern
