import TemporalPattern.Proofs.Bounds
import TemporalPattern.Proofs.NormalForm
import TemporalPattern.Proofs.Terms

/-!
# Verdicts on times

Two times are decided by their values if these are known, and otherwise by bounds that keep them
apart.  Both ways are right about times that lie within their bounds.
-/

namespace TemporalPattern

/-! ## Known values -/

/-- Words are compared as the integers that they stand for. -/
theorem compareOfLessAndEq_toInt {α : Type} [LT α] [DecidableLT α] [DecidableEq α] {toInt : α → Int}
    (hlt : ∀ m n : α, m < n ↔ toInt m < toInt n) (heq : ∀ m n : α, toInt m = toInt n ↔ m = n)
    (m n : α) : compareOfLessAndEq (toInt m) (toInt n) = compareOfLessAndEq m n := by
  simp only [compareOfLessAndEq, hlt, ← heq]

theorem Millis.compare_toInt (s t : Millis) : compare s.toInt t.toInt = compare s t :=
  compareOfLessAndEq_toInt (fun _ _ => Int64.lt_iff_toInt_lt) (fun _ _ => Int64.toInt_inj) s t

/-- What can be evaluated has that value on every timeline. -/
theorem TimePoint.value_of_evaluate {p : TimePoint} {m : Millis} (h : p.evaluate = some m)
    (t : Timeline) : p.value t = m.toInt := by
  induction p using TimePoint.induction generalizing m with
  | literal time =>
      rw [evaluate, Option.some_inj] at h
      rw [value, h]
  | selector name field => simp [evaluate] at h
  | constant length =>
      rw [evaluate, Option.some_inj] at h
      rw [value, h]
  | duration start stop ihstart ihstop =>
      simp only [evaluate, Option.bind_eq_bind, Option.bind_eq_some_iff] at h
      obtain ⟨y, hy, x, hx, hm⟩ := h
      rw [value, ihstop hy, ihstart hx, Millis.ofInt?_eq_some_iff.1 hm]
  | plus point length ih =>
      simp only [evaluate, Option.bind_eq_bind, Option.bind_eq_some_iff] at h
      obtain ⟨x, hx, hm⟩ := h
      rw [value, ih hx, Millis.ofInt?_eq_some_iff.1 hm]
  | aggregate choice args ih =>
      simp only [evaluate, evaluateEach_eq, Option.bind_eq_bind, Option.bind_eq_some_iff] at h
      obtain ⟨times, htimes, hm⟩ := h
      have hvalues : times.map Int64.toInt = args.map (·.value t) :=
        map_eq_of_mapM_eq_some htimes fun p hp m hm => (ih p hp hm).symm
      rw [value_aggregate, ← hvalues, Aggregate.choose_of_choose? hm]

/-! ## Bounds -/

namespace Bounds

variable {a b : Bounds} {x y : Int}

theorem below_iff : a.below b ↔ ∃ u ∈ a.upper, ∃ l ∈ b.lower, u.toInt < l.toInt := by
  unfold below
  split
  case h_1 u l hu hl => simp [hu, hl, Int64.lt_iff_toInt_lt]
  case h_2 hnone =>
    refine iff_of_false Bool.false_ne_true ?_
    rintro ⟨u, hu, l, hl, -⟩
    exact hnone u l hu hl

theorem atMost_iff : a.atMost b ↔ ∃ u ∈ a.upper, ∃ l ∈ b.lower, u.toInt ≤ l.toInt := by
  unfold atMost
  split
  case h_1 u l hu hl => simp [hu, hl, Int64.le_iff_toInt_le]
  case h_2 hnone =>
    refine iff_of_false Bool.false_ne_true ?_
    rintro ⟨u, hu, l, hl, -⟩
    exact hnone u l hu hl

theorem lt_of_below (h : a.below b) (hx : a.Contains x) (hy : b.Contains y) : x < y := by
  obtain ⟨u, hu, l, hl, hlt⟩ := below_iff.1 h
  calc x ≤ u.toInt := hx.upper u hu
    _ < l.toInt := hlt
    _ ≤ y := hy.lower l hl

theorem le_of_atMost (h : a.atMost b) (hx : a.Contains x) (hy : b.Contains y) : x ≤ y := by
  obtain ⟨u, hu, l, hl, hle⟩ := atMost_iff.1 h
  calc x ≤ u.toInt := hx.upper u hu
    _ ≤ l.toInt := hle
    _ ≤ y := hy.lower l hl

end Bounds

namespace Comparator

variable {op : Comparator} {x y : Int}

theorem relates_iff_holds : op.Relates x y ↔ op.holds (compare x y) = true := by
  rcases lt_trichotomy x y with hlt | heq | hgt
  · rw [compare_lt_iff_lt.2 hlt]
    cases op <;> simp [Relates, holds, hlt.ne, hlt.not_gt, hlt, hlt.le, hlt.not_ge]
  · rw [compare_eq_iff_eq.2 heq]
    cases op <;> simp [Relates, holds, heq]
  · rw [compare_gt_iff_gt.2 hgt]
    cases op <;> simp [Relates, holds, hgt.ne', hgt.not_gt, hgt, hgt.le, hgt.not_ge]

theorem isRight_verdictOnAtMost (h : x ≤ y) : op.verdictOnAtMost.IsRight (op.Relates x y) := by
  cases op with
  | lte => exact Verdict.isRight_some.2 (iff_of_true h rfl)
  | gt => exact Verdict.isRight_some.2 (iff_of_false h.not_gt Bool.false_ne_true)
  | eq | neq | lt | gte => exact Verdict.isRight_none _

theorem isRight_verdictOnAtLeast (h : y ≤ x) : op.verdictOnAtLeast.IsRight (op.Relates x y) := by
  cases op with
  | gte => exact Verdict.isRight_some.2 (iff_of_true h rfl)
  | lt => exact Verdict.isRight_some.2 (iff_of_false h.not_gt Bool.false_ne_true)
  | eq | neq | gt | lte => exact Verdict.isRight_none _

theorem isRight_verdictOnBounds {a b : Bounds} (hx : a.Contains x) (hy : b.Contains y) :
    (op.verdictOnBounds a b).IsRight (op.Relates x y) := by
  unfold verdictOnBounds
  by_cases hbelow : a.below b
  · rw [if_pos hbelow, Verdict.isRight_some, relates_iff_holds,
      compare_lt_iff_lt.2 (Bounds.lt_of_below hbelow hx hy)]
  · rw [if_neg hbelow]
    by_cases habove : b.below a
    · rw [if_pos habove, Verdict.isRight_some, relates_iff_holds,
        compare_gt_iff_gt.2 (Bounds.lt_of_below habove hy hx)]
    · rw [if_neg habove]
      by_cases hatMost : a.atMost b
      · rw [if_pos hatMost]
        exact isRight_verdictOnAtMost (Bounds.le_of_atMost hatMost hx hy)
      · rw [if_neg hatMost]
        by_cases hatLeast : b.atMost a
        · rw [if_pos hatLeast]
          exact isRight_verdictOnAtLeast (Bounds.le_of_atMost hatLeast hy hx)
        · rw [if_neg hatLeast]
          exact Verdict.isRight_none _

theorem isRight_verdictOnTimes {p q : TimePoint} {t : Timeline}
    (hp : p.bounds.Contains (p.value t)) (hq : q.bounds.Contains (q.value t)) :
    (op.verdictOnTimes p q).IsRight (op.Relates (p.value t) (q.value t)) := by
  unfold verdictOnTimes
  split
  case h_1 m n hm hn =>
    rw [Verdict.isRight_some, relates_iff_holds, TimePoint.value_of_evaluate hm,
      TimePoint.value_of_evaluate hn, Millis.compare_toInt]
  case h_2 => exact isRight_verdictOnBounds hp hq

end Comparator
end TemporalPattern
