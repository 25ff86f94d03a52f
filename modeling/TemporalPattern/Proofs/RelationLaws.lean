import TemporalPattern.Proofs.IntervalPoints

/-!
# Laws of the temporal relations

Between intervals without conditions a relation says one or two inequalities about their ends.  How
the relations go together follows from these inequalities alone: which are converses or opposites
of each other, and which of them cover all cases.
-/

namespace TemporalPattern

universe u

variable {D : Type u} [LinearOrder D] {v : Valuation D}

namespace IntervalRelation

/-! ## Each relation in terms of the ends -/

section

variable {relation : IntervalRelation} {i j : Interval} {args : List Argument} {p : Predicate}

/-- Arguments without conditions add nothing to the predicate of a relation. -/
theorem apply_of_predicate? (h : relation.predicate? i args = some p)
    (hargs : args.flatMap Argument.constraints = []) :
    relation.apply (.free i) args = .ok p := by
  unfold apply
  rw [Constrained.free, h, hargs]
  rfl

theorem holds_of_predicate? (h : relation.predicate? i args = some p)
    (hargs : args.flatMap Argument.constraints = []) :
    relation.Holds v i args ↔ p.Holds v.Satisfies := by
  rw [Holds, apply_of_predicate? h hargs]
  simp only [Except.ok.injEq, exists_eq_left']

theorem relates_overlaps : overlaps.Relates v i j ↔
    max (i.start.value v.timeline) (j.start.value v.timeline) <
      min (i.stop.value v.timeline) (j.stop.value v.timeline) := by
  rw [Relates, holds_of_predicate? rfl rfl, TimePoint.holds_compare, Interval.overlap,
    TimePoint.value_max_pair, TimePoint.value_min_pair]
  rfl

theorem relates_precedes :
    precedes.Relates v i j ↔ i.stop.value v.timeline ≤ j.start.value v.timeline := by
  rw [Relates, holds_of_predicate? rfl rfl, TimePoint.holds_compare]
  rfl

theorem relates_immediatelyPrecedes :
    immediatelyPrecedes.Relates v i j ↔ i.stop.value v.timeline = j.start.value v.timeline := by
  rw [Relates, holds_of_predicate? rfl rfl, TimePoint.holds_compare]
  rfl

theorem relates_succeeds :
    succeeds.Relates v i j ↔ j.stop.value v.timeline ≤ i.start.value v.timeline := by
  rw [Relates, holds_of_predicate? rfl rfl, TimePoint.holds_compare]
  rfl

theorem relates_immediatelySucceeds :
    immediatelySucceeds.Relates v i j ↔ i.start.value v.timeline = j.stop.value v.timeline := by
  rw [Relates, holds_of_predicate? rfl rfl, TimePoint.holds_compare]
  rfl

theorem relates_contains : contains.Relates v i j ↔
    i.start.value v.timeline ≤ j.start.value v.timeline ∧
      j.stop.value v.timeline ≤ i.stop.value v.timeline := by
  rw [Relates, holds_of_predicate? rfl rfl, Formula.Holds, TimePoint.holds_compare,
    TimePoint.holds_compare]
  rfl

theorem relates_equals : equals.Relates v i j ↔
    i.start.value v.timeline = j.start.value v.timeline ∧
      i.stop.value v.timeline = j.stop.value v.timeline := by
  rw [Relates, holds_of_predicate? rfl rfl, Formula.Holds, TimePoint.holds_compare,
    TimePoint.holds_compare]
  rfl

theorem holds_fromTo {x y : TimePoint} :
    fromTo.Holds v i [.timestamp x, .timestamp y] ↔
      i.start.value v.timeline < y.value v.timeline ∧
        x.value v.timeline < i.stop.value v.timeline := by
  rw [holds_of_predicate? rfl rfl, Formula.Holds, TimePoint.holds_compare,
    TimePoint.holds_compare]
  rfl

/-- Lengths are compared only between intervals that do not stop before they start. -/
theorem relates_of_compareLength (op : Comparator)
    (h : ∀ arg, relation.predicate? i [arg] = compareLength op i arg) :
    relation.Relates v i j ↔
      i.start.value v.timeline ≤ i.stop.value v.timeline ∧
        op.Relates (i.stop.value v.timeline - i.start.value v.timeline)
          (j.stop.value v.timeline - j.start.value v.timeline) ∧
        j.start.value v.timeline ≤ j.stop.value v.timeline := by
  rw [Relates, holds_of_predicate? (h _) rfl, Formula.Holds, Formula.Holds,
    Interval.holds_wellFormed, Interval.holds_wellFormed, Interval.points_nonempty,
    Interval.points_nonempty, TimePoint.holds_compare, Interval.length, Interval.length,
    TimePoint.value, TimePoint.value, and_assoc]
  rfl

end

/-! ## Laws -/

/-- How the relations between intervals without conditions go together on given data. -/
structure Laws (v : Valuation D) : Prop where
  /-- Only the two relations with given ends do not accept an interval. -/
  accepts (relation : IntervalRelation) (i j : Interval)
    (h : relation ≠ fromTo ∧ relation ≠ between) :
    ∃ p, relation.apply (.free i) [.interval (.free j)] = .ok p
  overlaps_symm (i j : Interval) : overlaps.Relates v i j ↔ overlaps.Relates v j i
  equals_symm (i j : Interval) : equals.Relates v i j ↔ equals.Relates v j i
  precedes_iff_succeeds (i j : Interval) : precedes.Relates v i j ↔ succeeds.Relates v j i
  immediatelyPrecedes_iff (i j : Interval) :
    immediatelyPrecedes.Relates v i j ↔ immediatelySucceeds.Relates v j i
  precedes_of_immediatelyPrecedes (i j : Interval) (h : immediatelyPrecedes.Relates v i j) :
    precedes.Relates v i j
  /-- Two intervals that last overlap or lie one before the other, and only one of these. -/
  trichotomy (i j : Interval) (hi : i.start.value v.timeline < i.stop.value v.timeline)
    (hj : j.start.value v.timeline < j.stop.value v.timeline) :
    (overlaps.Relates v i j ∨ precedes.Relates v i j ∨ succeeds.Relates v i j) ∧
      ¬ (overlaps.Relates v i j ∧ precedes.Relates v i j) ∧
      ¬ (overlaps.Relates v i j ∧ succeeds.Relates v i j) ∧
      ¬ (precedes.Relates v i j ∧ succeeds.Relates v i j)
  contains_antisymm (i j : Interval) :
    contains.Relates v i j ∧ contains.Relates v j i ↔ equals.Relates v i j
  fromTo_iff_overlaps (i : Interval) (x y : TimePoint)
    (hi : i.start.value v.timeline < i.stop.value v.timeline)
    (hxy : x.value v.timeline < y.value v.timeline) :
    fromTo.Holds v i [.timestamp x, .timestamp y] ↔ overlaps.Relates v i ⟨x, y⟩
  longerThan_iff_not (i j : Interval) (hi : i.start.value v.timeline ≤ i.stop.value v.timeline)
    (hj : j.start.value v.timeline ≤ j.stop.value v.timeline) :
    longerThan.Relates v i j ↔ ¬ lengthAtMost.Relates v i j
  shorterThan_iff_not (i j : Interval) (hi : i.start.value v.timeline ≤ i.stop.value v.timeline)
    (hj : j.start.value v.timeline ≤ j.stop.value v.timeline) :
    shorterThan.Relates v i j ↔ ¬ lengthAtLeast.Relates v i j
  longerThan_iff_shorterThan (i j : Interval) :
    longerThan.Relates v i j ↔ shorterThan.Relates v j i
  /-- An element, or the whole pattern, was recorded at the points of its transaction time. -/
  asOf_iff_contains (name? : Option String) (x : TimePoint) :
    (Predicate.asOf name? x).Holds v.Satisfies ↔
      contains.Holds v (.ofElement (name?.getD globalVariable) .transaction) [.timestamp x]

section

variable {relation : IntervalRelation} {i j : Interval}

theorem exists_apply_interval (h : relation ≠ fromTo ∧ relation ≠ between) :
    ∃ p, relation.apply (.free i) [.interval (.free j)] = .ok p := by
  cases relation with
  | fromTo => exact absurd rfl h.1
  | between => exact absurd rfl h.2
  | _ => exact ⟨_, apply_of_predicate? rfl rfl⟩

theorem overlaps_precedes_succeeds (hi : i.start.value v.timeline < i.stop.value v.timeline)
    (hj : j.start.value v.timeline < j.stop.value v.timeline) :
    (overlaps.Relates v i j ∨ precedes.Relates v i j ∨ succeeds.Relates v i j) ∧
      ¬ (overlaps.Relates v i j ∧ precedes.Relates v i j) ∧
      ¬ (overlaps.Relates v i j ∧ succeeds.Relates v i j) ∧
      ¬ (precedes.Relates v i j ∧ succeeds.Relates v i j) := by
  rw [relates_overlaps, relates_precedes, relates_succeeds]
  omega

/-- Opposite comparisons of lengths exclude each other and leave no third case. -/
theorem relates_iff_not_of_compareLength {relation' : IntervalRelation} {op : Comparator}
    (h : ∀ arg, relation.predicate? i [arg] = compareLength op i arg)
    (h' : ∀ arg, relation'.predicate? i [arg] = compareLength op.inverse i arg)
    (hi : i.start.value v.timeline ≤ i.stop.value v.timeline)
    (hj : j.start.value v.timeline ≤ j.stop.value v.timeline) :
    relation.Relates v i j ↔ ¬ relation'.Relates v i j := by
  rw [relates_of_compareLength op h, relates_of_compareLength op.inverse h',
    Comparator.relates_inverse]
  simp only [hi, hj, true_and, and_true, not_not]

theorem longerThan_iff_shorterThan : longerThan.Relates v i j ↔ shorterThan.Relates v j i := by
  rw [relates_of_compareLength .gt fun _ => rfl, relates_of_compareLength .lt fun _ => rfl,
    Comparator.Relates, Comparator.Relates]
  omega

end

/-- The relations between intervals go together as their names say. -/
theorem relations_obey_laws (v : Valuation D) : Laws v where
  accepts _ _ _ h := exists_apply_interval h
  overlaps_symm i j := by
    rw [relates_overlaps, relates_overlaps, max_comm, min_comm]
  equals_symm i j := by
    rw [relates_equals, relates_equals, eq_comm, eq_comm (a := i.stop.value v.timeline)]
  precedes_iff_succeeds i j := by
    rw [relates_precedes, relates_succeeds]
  immediatelyPrecedes_iff i j := by
    rw [relates_immediatelyPrecedes, relates_immediatelySucceeds, eq_comm]
  precedes_of_immediatelyPrecedes i j h := by
    rw [relates_immediatelyPrecedes] at h
    exact relates_precedes.2 h.le
  trichotomy _ _ hi hj := overlaps_precedes_succeeds hi hj
  contains_antisymm i j := by
    rw [relates_contains, relates_contains, relates_equals]
    omega
  fromTo_iff_overlaps i x y hi hxy := by
    rw [holds_fromTo, relates_overlaps]
    dsimp only
    omega
  longerThan_iff_not _ _ hi hj :=
    relates_iff_not_of_compareLength (fun _ => rfl) (fun _ => rfl) hi hj
  shorterThan_iff_not _ _ hi hj :=
    relates_iff_not_of_compareLength (fun _ => rfl) (fun _ => rfl) hi hj
  longerThan_iff_shorterThan _ _ := longerThan_iff_shorterThan
  asOf_iff_contains _ _ := (holds_of_predicate? rfl rfl).symm

/-- An interval that stops where another one starts precedes it immediately and does not overlap
it. -/
theorem relations_obey_laws_of_touching_intervals :
    ∃ (v : Valuation Int) (i j : Interval), v = .ofTimeline (fun _ _ => 0) ∧
      i = ⟨.literal 0, .literal 10⟩ ∧ j = ⟨.literal 10, .literal 20⟩ ∧
      i.start.value v.timeline < i.stop.value v.timeline ∧
      j.start.value v.timeline < j.stop.value v.timeline ∧
      immediatelyPrecedes.Relates v i j ∧ precedes.Relates v i j ∧
      ¬ overlaps.Relates v i j ∧ ¬ succeeds.Relates v i j := by
  refine ⟨_, _, _, rfl, rfl, rfl, ?_⟩
  have laws := relations_obey_laws (.ofTimeline fun _ _ => 0)
  have hi : (TimePoint.literal 0).value (fun _ _ => 0) <
      (TimePoint.literal 10).value (fun _ _ => 0) := by decide
  have hj : (TimePoint.literal 10).value (fun _ _ => 0) <
      (TimePoint.literal 20).value (fun _ _ => 0) := by decide
  have htouch : immediatelyPrecedes.Relates (.ofTimeline fun _ _ => 0)
      ⟨.literal 0, .literal 10⟩ ⟨.literal 10, .literal 20⟩ := relates_immediatelyPrecedes.2 rfl
  have hprecedes := laws.precedes_of_immediatelyPrecedes _ _ htouch
  obtain ⟨-, hoverlaps, -, hsucceeds⟩ :=
    laws.trichotomy ⟨.literal 0, .literal 10⟩ ⟨.literal 10, .literal 20⟩ hi hj
  exact ⟨hi, hj, htouch, hprecedes, fun h => hoverlaps ⟨h, hprecedes⟩,
    fun h => hsucceeds ⟨hprecedes, h⟩⟩

end IntervalRelation
end TemporalPattern
