import TemporalPattern.Interval.Expression
import TemporalPattern.Interval.Valuation
import TemporalPattern.Proofs.Expansion

/-!
# Intervals as sets of instants

The ends of a merged or a joined interval are extremes of the ends of its operands.  They enclose
the intersection of the operands in every case, and the union as long as the operands have an
instant in common, which is the very condition that a merge and a join put on them.
-/

namespace TemporalPattern

universe u

variable {D : Type u} [LinearOrder D] {v : Valuation D}

/-- The data of a timeline alone, with the instants themselves as values. -/
def Valuation.ofTimeline (t : Timeline) : Valuation Int where
  timeline := t
  instant := RelEmbedding.refl _
  value _ := 0
  element _ := 0
  property _ _ := 0

/-! ## Extremes of two instants -/

namespace TimePoint

theorem value_max_pair (t : Timeline) (p q : TimePoint) :
    (aggregate .max [p, q]).value t = max (p.value t) (q.value t) :=
  value_aggregate t .max [p, q]

theorem value_min_pair (t : Timeline) (p q : TimePoint) :
    (aggregate .min [p, q]).value t = min (p.value t) (q.value t) :=
  value_aggregate t .min [p, q]

/-- Time points compare as the integers they stand for. -/
theorem holds_compare (v : Valuation D) (p : TimePoint) (op : Comparator) (q : TimePoint) :
    (p.compare op q).Holds v.Satisfies ↔ op.Relates (p.value v.timeline) (q.value v.timeline) :=
  Comparator.relates_instant v.instant op _ _

end TimePoint

/-! ## The instants of an interval -/

namespace Interval

variable {t : Timeline} {i j : Interval}

theorem mem_points {x : Int} : x ∈ i.points t ↔ i.start.value t ≤ x ∧ x ≤ i.stop.value t :=
  Iff.rfl

theorem points_nonempty : (i.points t).Nonempty ↔ i.start.value t ≤ i.stop.value t := by
  constructor
  · rintro ⟨x, hstart, hstop⟩
    exact hstart.trans hstop
  · intro h
    exact ⟨i.start.value t, le_refl _, h⟩

theorem points_overlap (t : Timeline) (i j : Interval) :
    (i.overlap j).points t = i.points t ∩ j.points t := by
  ext x
  rw [Set.mem_inter_iff, mem_points, mem_points, mem_points, overlap, TimePoint.value_max_pair,
    TimePoint.value_min_pair]
  omega

/-- Without a common instant the span would close the gap between the operands. -/
theorem points_span (h : (i.points t ∩ j.points t).Nonempty) :
    (i.span j).points t = i.points t ∪ j.points t := by
  obtain ⟨y, hi, hj⟩ := h
  rw [mem_points] at hi hj
  ext x
  rw [Set.mem_union, mem_points, mem_points, mem_points, span, TimePoint.value_min_pair,
    TimePoint.value_max_pair]
  omega

theorem holds_wellFormed (v : Valuation D) (i : Interval) :
    i.wellFormed.Holds v.Satisfies ↔ (i.points v.timeline).Nonempty := by
  rw [wellFormed, TimePoint.holds_compare, points_nonempty]
  rfl

end Interval

/-! ## The conditions of a construction -/

namespace Constrained

theorem met_free {α : Type} (value : α) : (free value).Met v := by
  intro p hp
  simp [free] at hp

theorem met_literal {start stop : TimePoint} :
    (Interval.literal start stop).Met v ↔ start.value v.timeline ≤ stop.value v.timeline := by
  rw [Met, Interval.literal, List.forall_mem_singleton, Interval.holds_wellFormed,
    Interval.points_nonempty]

variable {a b : Constrained Interval}

theorem met_merge : (Interval.merge a b).Met v ↔
    a.Met v ∧ b.Met v ∧ (a.value.points v.timeline ∩ b.value.points v.timeline).Nonempty := by
  have hconditions : (Interval.merge a b).constraints =
      (a.value.overlap b.value).wellFormed :: (a.constraints ++ b.constraints) := rfl
  rw [Met, hconditions, List.forall_mem_cons, List.forall_mem_append, Interval.holds_wellFormed,
    Interval.points_overlap, and_comm, and_assoc]
  rfl

/-- A join puts the same conditions on its operands as a merge. -/
theorem met_join : (Interval.join a b).Met v ↔
    a.Met v ∧ b.Met v ∧ (a.value.points v.timeline ∩ b.value.points v.timeline).Nonempty :=
  met_merge

end Constrained

/-! ## Expressions -/

namespace IntervalExpr

/-- Under its conditions an interval has the instants that its expression stands for. -/
theorem points_of_met {e : IntervalExpr} (h : e.interval.Met v) :
    e.interval.value.points v.timeline = e.points v.timeline := by
  induction e with
  | selector name axis => rfl
  | literal start stop => rfl
  | merge i j ihi ihj =>
      obtain ⟨hi, hj, -⟩ := Constrained.met_merge.1 h
      calc (i.interval.value.overlap j.interval.value).points v.timeline
          = i.interval.value.points v.timeline ∩ j.interval.value.points v.timeline :=
            Interval.points_overlap _ _ _
        _ = i.points v.timeline ∩ j.points v.timeline := by rw [ihi hi, ihj hj]
  | join i j ihi ihj =>
      obtain ⟨hi, hj, hmeet⟩ := Constrained.met_join.1 h
      calc (i.interval.value.span j.interval.value).points v.timeline
          = i.interval.value.points v.timeline ∪ j.interval.value.points v.timeline :=
            Interval.points_span hmeet
        _ = i.points v.timeline ∪ j.points v.timeline := by rw [ihi hi, ihj hj]

/-- The conditions on two operands, which do not depend on what is made of them. -/
theorem operands_meet_iff {i j : IntervalExpr} (hi : i.interval.Met v ↔ i.MakesSense v.timeline)
    (hj : j.interval.Met v ↔ j.MakesSense v.timeline) :
    (i.interval.Met v ∧ j.interval.Met v ∧
        (i.interval.value.points v.timeline ∩ j.interval.value.points v.timeline).Nonempty) ↔
      i.MakesSense v.timeline ∧ j.MakesSense v.timeline ∧
        (i.points v.timeline ∩ j.points v.timeline).Nonempty := by
  rw [← hi, ← hj]
  refine and_congr_right fun hi => and_congr_right fun hj => ?_
  rw [points_of_met hi, points_of_met hj]

theorem met_iff_makesSense {e : IntervalExpr} :
    e.interval.Met v ↔ e.MakesSense v.timeline := by
  induction e with
  | selector name axis => exact iff_of_true (Constrained.met_free _) trivial
  | literal start stop => exact Constrained.met_literal
  | merge i j ihi ihj => exact Constrained.met_merge.trans (operands_meet_iff ihi ihj)
  | join i j ihi ihj => exact Constrained.met_join.trans (operands_meet_iff ihi ihj)

/-- The conditions of an interval say that given ends are in order and that operands have an instant
in common wherever they are combined.  Where that is so, the interval has exactly the instants of
its expression, read with intersections for merges and unions for joins. -/
theorem interval_denotes_points (e : IntervalExpr) (v : Valuation D) :
    (e.interval.Met v ↔ e.MakesSense v.timeline) ∧
      (e.interval.Met v → e.interval.value.points v.timeline = e.points v.timeline) :=
  ⟨met_iff_makesSense, points_of_met⟩

/-- A given interval joined to the common part of a selected and another given one. -/
theorem interval_denotes_points_of_joined_parts :
    ∃ (e : IntervalExpr) (v : Valuation Int),
      e = .join (.literal (.literal 0) (.literal 10))
        (.merge (.selector "a" .valid) (.literal (.literal 5) (.literal 30))) ∧
      v = .ofTimeline (fun _ field => if field.isStart then 8 else 20) ∧
      e.interval.Met v ∧ e.interval.value.points v.timeline = e.points v.timeline := by
  refine ⟨_, _, rfl, rfl, ?met, (interval_denotes_points _ _).2 ?met⟩
  refine (interval_denotes_points _ _).1.2 ⟨?_, ⟨trivial, ?_, 8, ?_⟩, 8, ?_⟩
  · show (0 : Int) ≤ 10
    decide
  · show (5 : Int) ≤ 30
    decide
  · show ((8 : Int) ≤ 8 ∧ (8 : Int) ≤ 20) ∧ (5 : Int) ≤ 8 ∧ (8 : Int) ≤ 30
    decide
  · show ((0 : Int) ≤ 8 ∧ (8 : Int) ≤ 10) ∧
      ((8 : Int) ≤ 8 ∧ (8 : Int) ≤ 20) ∧ (5 : Int) ≤ 8 ∧ (8 : Int) ≤ 30
    decide

end IntervalExpr

end TemporalPattern
