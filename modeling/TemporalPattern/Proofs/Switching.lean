import TemporalPattern.Comparison.Tied
import TemporalPattern.Predicate
import TemporalPattern.Proofs.Formula
import TemporalPattern.Proofs.TermBounds
import TemporalPattern.Proofs.Verdicts

/-!
# Verdicts with the operands the other way round

A comparison and the one with its operands switched are decided by the same values and the same
bounds, so they have the same verdict, with one exception.  If bounds leave the same single value to
both operands, each is at most the other; but the verdict only looks at one of the two directions,
and at the other one when the operands are switched.
-/

namespace TemporalPattern

/-! ## Values -/

theorem Unpacked.compare?_swap (x y : Unpacked) :
    y.compare? x = (x.compare? y).map Ordering.swap := by
  cases x with
  | nan => cases y <;> rfl
  | infinite s =>
      cases y with
      | nan => rfl
      | infinite t => rw [compare?, compare?, Option.map_some, Std.OrientedOrd.eq_swap]
      | finite t n k => cases s <;> rfl
  | finite s m e =>
      cases y with
      | nan => rfl
      | infinite t => cases t <;> rfl
      | finite t n k =>
          rw [compare?, compare?, Option.map_some, Int.min_comm, Std.OrientedOrd.eq_swap]

namespace Value

theorem order?_swap (v w : Value) : w.order? v = (v.order? w).map Ordering.swap := by
  cases v with
  | text s =>
      cases w with
      | text t => exact congrArg some Std.OrientedOrd.eq_swap
      | _ => rfl
  | bool a =>
      cases w with
      | bool b => exact congrArg some Std.OrientedOrd.eq_swap
      | _ => rfl
  | int32 m =>
      cases w with
      | int32 n => exact congrArg some Std.OrientedOrd.eq_swap
      | _ => rfl
  | int64 m =>
      cases w with
      | int64 n => exact congrArg some Std.OrientedOrd.eq_swap
      | _ => rfl
  | float32 x =>
      cases w with
      | float32 y => exact Unpacked.compare?_swap _ _
      | _ => rfl
  | float64 x =>
      cases w with
      | float64 y => exact Unpacked.compare?_swap _ _
      | _ => rfl

theorem compare?_swap (v w : Value) : w.compare? v = (v.compare? w).map Ordering.swap := by
  have hrest : (if w.type = v.type then w.order? v
      else do (← w.toFloat64?).compare? (← v.toFloat64?)) =
        (if v.type = w.type then v.order? w
          else do (← v.toFloat64?).compare? (← w.toFloat64?)).map Ordering.swap := by
    by_cases h : v.type = w.type
    · rw [if_pos h, if_pos h.symm, order?_swap]
    · rw [if_neg h, if_neg (Ne.symm h)]
      cases v.toFloat64? with
      | none => cases w.toFloat64? <;> rfl
      | some x =>
          cases w.toFloat64? with
          | none => rfl
          | some y => exact Unpacked.compare?_swap _ _
  cases v with
  | int32 m =>
      cases w with
      | int64 n => exact congrArg some Std.OrientedOrd.eq_swap
      | _ => exact hrest
  | int64 m =>
      cases w with
      | int32 n => exact congrArg some Std.OrientedOrd.eq_swap
      | _ => exact hrest
  | _ => cases w <;> exact hrest

end Value

theorem ValueType.isComparableWith_comm (s t : ValueType) :
    s.isComparableWith t = t.isComparableWith s := by
  rw [isComparableWith, isComparableWith, Bool.and_comm, decide_eq_decide.2 eq_comm]

namespace Comparator

variable (op : Comparator)

theorem verdictOnIncomparable_converse :
    op.converse.verdictOnIncomparable = op.verdictOnIncomparable := by
  cases op <;> rfl

theorem verdictOnAtMost_converse : op.converse.verdictOnAtMost = op.verdictOnAtLeast := by
  cases op <;> rfl

theorem verdictOnAtLeast_converse : op.converse.verdictOnAtLeast = op.verdictOnAtMost := by
  cases op <;> rfl

theorem verdictOnValues_converse (v w : Value) :
    op.converse.verdictOnValues w v = op.verdictOnValues v w := by
  unfold verdictOnValues
  rw [ValueType.isComparableWith_comm, verdictOnIncomparable_converse]
  split
  case isTrue =>
    rw [Value.compare?_swap, Option.map_map]
    exact Option.map_congr fun order _ => op.holds_converse order
  case isFalse => rfl

end Comparator

/-! ## Bounds -/

namespace Bounds

variable {a b : Bounds}

theorem atMost_of_below (h : a.below b) : a.atMost b := by
  obtain ⟨u, hu, l, hl, hlt⟩ := below_iff.1 h
  exact atMost_iff.2 ⟨u, hu, l, hl, hlt.le⟩

theorem not_atMost_of_below (ha : a.Ordered) (hb : b.Ordered) (h : a.below b) : ¬ b.atMost a := by
  intro hatMost
  obtain ⟨u, hu, l, hl, hlt⟩ := below_iff.1 h
  obtain ⟨u', hu', l', hl', hle⟩ := atMost_iff.1 hatMost
  have hal : l'.toInt ≤ u.toInt := ha l' hl' u hu
  have hbl : l.toInt ≤ u'.toInt := hb l hl u' hu'
  omega

/-- Each of two values is at most the other by the bounds only if the bounds are the same value. -/
theorem atMost_and_atMost_iff (ha : a.Ordered) (hb : b.Ordered) :
    a.atMost b ∧ b.atMost a ↔ a.IsSingle ∧ b = a := by
  constructor
  · rintro ⟨hab, hba⟩
    obtain ⟨u, hu, l, hl, hle⟩ := atMost_iff.1 hab
    obtain ⟨u', hu', l', hl', hle'⟩ := atMost_iff.1 hba
    have hal : l'.toInt ≤ u.toInt := ha l' hl' u hu
    have hbl : l.toInt ≤ u'.toInt := hb l hl u' hu'
    obtain rfl : l' = u := Int64.toInt_inj.1 (by omega)
    obtain rfl : l = l' := Int64.toInt_inj.1 (by omega)
    obtain rfl : u' = l := Int64.toInt_inj.1 (by omega)
    obtain ⟨lower, upper⟩ := a
    obtain ⟨lower', upper'⟩ := b
    obtain rfl : upper = some u' := hu
    obtain rfl : lower = some u' := hl'
    obtain rfl : upper' = some u' := hu'
    obtain rfl : lower' = some u' := hl
    exact ⟨⟨rfl, rfl⟩, rfl⟩
  · rintro ⟨⟨hupper, hlower⟩, rfl⟩
    obtain ⟨u, hu⟩ := Option.isSome_iff_exists.1 hupper
    have hself : b.atMost b := atMost_iff.2 ⟨u, hu, u, hlower.trans hu, le_refl _⟩
    exact ⟨hself, hself⟩

end Bounds

namespace Comparator

variable {op : Comparator}

/-- Other bounds are kept apart in one direction only, so the sequence of the rules does not
matter. -/
theorem verdictOnBounds_converse {a b : Bounds} (ha : a.Ordered) (hb : b.Ordered)
    (h : ¬ (a.IsSingle ∧ b = a)) :
    op.converse.verdictOnBounds b a = op.verdictOnBounds a b := by
  rw [← Bounds.atMost_and_atMost_iff ha hb] at h
  unfold verdictOnBounds
  by_cases hbelow : a.below b
  · have habove : ¬ b.below a := fun h' =>
      Bounds.not_atMost_of_below ha hb hbelow (Bounds.atMost_of_below h')
    rw [if_neg habove, if_pos hbelow, if_pos hbelow, Option.some_inj]
    exact op.holds_converse .lt
  · by_cases habove : b.below a
    · rw [if_pos habove, if_neg hbelow, if_pos habove, Option.some_inj]
      exact op.holds_converse .gt
    · rw [if_neg hbelow, if_neg habove, if_neg habove, if_neg hbelow]
      by_cases hatMost : a.atMost b
      · have hatLeast : ¬ b.atMost a := fun h' => h ⟨hatMost, h'⟩
        rw [if_neg hatLeast, if_pos hatMost, if_pos hatMost, verdictOnAtLeast_converse]
      · rw [if_neg hatMost, if_neg hatMost]
        split
        case isTrue => exact op.verdictOnAtMost_converse
        case isFalse => rfl

/-- On a single value only the rule for the left side is reached. -/
theorem verdictOnBounds_of_isSingle {b : Bounds} (h : b.IsSingle) :
    op.verdictOnBounds b b = op.verdictOnAtMost := by
  obtain ⟨lower, upper⟩ := b
  obtain ⟨hupper, rfl : lower = upper⟩ := h
  obtain ⟨u, rfl⟩ := Option.isSome_iff_exists.1 hupper
  simp [verdictOnBounds, Bounds.below, Bounds.atMost]

theorem verdictOnTimes_of_open {p q : TimePoint} (h : p.evaluate = none ∨ q.evaluate = none) :
    op.verdictOnTimes p q = op.verdictOnBounds p.bounds q.bounds := by
  unfold verdictOnTimes
  split
  case h_1 s t hs ht => simp [hs, ht] at h
  case h_2 => rfl

theorem verdictOnTimes_of_coincide (op : Comparator) {p q : TimePoint} (h : p.Coincide q) :
    op.verdictOnTimes p q = op.verdictOnAtMost ∧
    op.converse.verdictOnTimes q p = op.verdictOnAtLeast := by
  obtain ⟨hopen, hsingle, hbounds⟩ := h
  rw [verdictOnTimes_of_open hopen, verdictOnTimes_of_open hopen.symm, hbounds,
    verdictOnBounds_of_isSingle hsingle, verdictOnBounds_of_isSingle hsingle,
    verdictOnAtMost_converse]
  exact ⟨rfl, rfl⟩

theorem verdictOnTimes_converse {p q : TimePoint} (h : ¬ p.Coincide q) :
    op.converse.verdictOnTimes q p = op.verdictOnTimes p q := by
  by_cases hopen : p.evaluate = none ∨ q.evaluate = none
  · rw [verdictOnTimes_of_open hopen, verdictOnTimes_of_open hopen.symm]
    apply verdictOnBounds_converse p.ordered_bounds q.ordered_bounds
    exact fun hsingle => h ⟨hopen, hsingle⟩
  · obtain ⟨hp, hq⟩ := not_or.1 hopen
    obtain ⟨s, hs⟩ := Option.ne_none_iff_exists'.1 hp
    obtain ⟨t, ht⟩ := Option.ne_none_iff_exists'.1 hq
    rw [verdictOnTimes, verdictOnTimes, hs, ht, Option.some_inj, ← op.holds_converse,
      Std.OrientedOrd.eq_swap]

/-- Comparing for equality needs both directions, so neither of them decides it. -/
theorem verdictOnAtLeast_eq_verdictOnAtMost_iff :
    op.verdictOnAtLeast = op.verdictOnAtMost ↔ op = .eq ∨ op = .neq := by
  cases op <;> decide

theorem agree_verdictOnAtLeast_verdictOnAtMost :
    op.verdictOnAtLeast.Agree op.verdictOnAtMost := by
  cases op <;> simp [verdictOnAtLeast, verdictOnAtMost, Verdict.Agree]

end Comparator

/-! ## Comparisons and predicates -/

namespace Comparison

theorem exists_of_isTied {c : Comparison} (h : c.IsTied) :
    ∃ p q, c = ofTimes p c.op q ∧ p.Coincide q := by
  obtain ⟨lhs, op, rhs⟩ := c
  cases lhs with
  | time p =>
      cases rhs with
      | time q => exact ⟨p, q, rfl, h.1⟩
      | value _ | element _ | property _ _ => exact h.elim
  | value _ | element _ | property _ _ => exact h.elim

theorem evaluate_switch_iff (c : Comparison) : c.switch.evaluate = c.evaluate ↔ ¬ c.IsTied := by
  obtain ⟨lhs, op, rhs⟩ := c
  cases lhs with
  | time p =>
      cases rhs with
      | time q =>
          show op.converse.verdictOnTimes q p = op.verdictOnTimes p q ↔
            ¬ (p.Coincide q ∧ op ≠ .eq ∧ op ≠ .neq)
          by_cases hcoincide : p.Coincide q
          · obtain ⟨hatMost, hatLeast⟩ := Comparator.verdictOnTimes_of_coincide op hcoincide
            rw [hatMost, hatLeast, Comparator.verdictOnAtLeast_eq_verdictOnAtMost_iff, ← not_or,
              not_and_not_right]
            exact ⟨fun hop _ => hop, fun hop => hop hcoincide⟩
          · exact iff_of_true (Comparator.verdictOnTimes_converse hcoincide) fun h => hcoincide h.1
      | value _ | element _ | property _ _ => exact iff_of_true rfl not_false
  | value v =>
      cases rhs with
      | value w => exact iff_of_true (op.verdictOnValues_converse v w) not_false
      | time _ | element _ | property _ _ => exact iff_of_true rfl not_false
  | element _ | property _ _ => cases rhs <;> exact iff_of_true rfl not_false

theorem agree_switch (c : Comparison) : c.switch.evaluate.Agree c.evaluate := by
  by_cases htied : c.IsTied
  · obtain ⟨p, q, hc, hcoincide⟩ := exists_of_isTied htied
    rw [hc]
    obtain ⟨hatMost, hatLeast⟩ := Comparator.verdictOnTimes_of_coincide c.op hcoincide
    show (c.op.converse.verdictOnTimes q p).Agree (c.op.verdictOnTimes p q)
    rw [hatMost, hatLeast]
    exact Comparator.agree_verdictOnAtLeast_verdictOnAtMost
  · rw [c.evaluate_switch_iff.2 htied]
    exact .refl _

end Comparison

/-- Switching the operands of every comparison keeps the verdict on a predicate unless a comparison
in it is tied, and a tied comparison never keeps its verdict.  In no case do both verdicts
contradict each other. -/
theorem Predicate.switching_keeps_verdict_unless_tied (p : Predicate) :
    ((∀ c ∈ p.atoms, ¬ c.IsTied) → p.switch.evaluate = p.evaluate) ∧
    (∀ c ∈ p.atoms, c.switch.evaluate = c.evaluate ↔ ¬ c.IsTied) ∧
    Verdict.Agree p.switch.evaluate p.evaluate := by
  have hswitch : p.switch.evaluate = Formula.evaluate (Comparison.evaluate ∘ Comparison.switch) p :=
    Formula.evaluate_map Comparison.switch Comparison.evaluate p
  rw [hswitch]
  refine ⟨?_, fun c _ => c.evaluate_switch_iff, ?_⟩
  · intro h
    apply Formula.evaluate_congr
    intro c hc
    exact c.evaluate_switch_iff.2 (h c hc)
  · apply Formula.agree_evaluate
    exact Comparison.agree_switch

theorem Predicate.switching_keeps_verdict_of_touching_bounds :
    let early : TimePoint := .aggregate .min [.selector "a" ⟨.valid, .start⟩, .literal 9]
    let late : TimePoint := .aggregate .max
      [.selector "b" ⟨.transaction, .stop⟩, .plus (.literal 4) 5]
    let three : Comparison := ⟨.value (.int32 3), .gte, .value (.float64 ⟨0x4008000000000000⟩)⟩
    let p : Predicate := .xor (.atom (.ofTimes early .lte late))
      (.and (.atom three) (.not (.atom (.ofTimes late .lt early))))
    early.evaluate = none ∧ early.bounds.upper = some 9 ∧ late.bounds.lower = some 9 ∧
    (∀ c ∈ p.atoms, ¬ c.IsTied) ∧ p.evaluate = some false ∧ p.switch.evaluate = p.evaluate := by
  intro early late three p
  have hatoms : ∀ c ∈ p.atoms, ¬ c.IsTied := by decide
  exact ⟨rfl, by decide, by decide, hatoms, by decide,
    (switching_keeps_verdict_unless_tied p).1 hatoms⟩

/-- The earlier of 5 and something not before 5 is at most 5, but the verdict that 5 is at least
that is left open. -/
theorem Predicate.switching_loses_verdict_of_tied_comparison :
    let m : TimePoint := .aggregate .min
      [.aggregate .max [.selector "a" ⟨.valid, .start⟩, .literal 5], .literal 5]
    let p : Predicate := .atom (.ofTimes m .lte (.literal 5))
    p.evaluate = some true ∧ p.switch.evaluate = none ∧ ¬ p.switch.evaluate = p.evaluate := by
  decide

end TemporalPattern
