import TemporalPattern.Interval.Relation
import TemporalPattern.Proofs.Formula

/-!
# What filters compare

Filters compare instants, given lengths and lengths between two instants; no length is taken of
lengths, and nothing is shifted.  Every construction of intervals and relations keeps to that, and
so do its conditions.
-/

namespace TemporalPattern

/-! ## Terms -/

namespace TimePoint

/-- A given instant with a property, a selected instant, or the latest or the earliest of some. -/
inductive IsInstant (good : Millis → Prop) : TimePoint → Prop where
  | literal {time : Millis} (htime : good time) : IsInstant good (literal time)
  | selector (name : String) (field : TimeField) : IsInstant good (selector name field)
  | aggregate (choice : Aggregate) {args : List TimePoint} (hne : args ≠ [])
      (hargs : ∀ p ∈ args, IsInstant good p) : IsInstant good (aggregate choice args)

/-- An instant, a given length, or the length between two instants. -/
inductive IsOrdinary (good : Millis → Prop) : TimePoint → Prop where
  | instant {p : TimePoint} (hp : p.IsInstant good) : IsOrdinary good p
  | constant (length : Millis) : IsOrdinary good (constant length)
  | duration {start stop : TimePoint} (hstart : start.IsInstant good)
      (hstop : stop.IsInstant good) : IsOrdinary good (duration start stop)

end TimePoint

variable {good : Millis → Prop}

theorem Aggregate.isInstant_of {choice : Aggregate} {args : List TimePoint} {p : TimePoint}
    (h : choice.of args = .ok p) (hargs : ∀ q ∈ args, q.IsInstant good) : p.IsInstant good := by
  match args with
  | [] => simp [Aggregate.of] at h
  | [q] =>
      obtain rfl := Except.ok.inj h
      exact hargs q (List.mem_singleton_self q)
  | q :: r :: args =>
      obtain rfl := Except.ok.inj h
      exact .aggregate choice (List.cons_ne_nil q (r :: args)) hargs

theorem Aggregate.isInstant_pair (choice : Aggregate) {p q : TimePoint} (hp : p.IsInstant good)
    (hq : q.IsInstant good) : (TimePoint.aggregate choice [p, q]).IsInstant good := by
  apply TimePoint.IsInstant.aggregate choice (List.cons_ne_nil p [q])
  intro r hr
  rcases List.mem_pair.1 hr with rfl | rfl
  · exact hp
  · exact hq

/-! ## Comparisons and predicates -/

/-- Other operands than times are not restricted. -/
def Operand.IsOrdinary (good : Millis → Prop) : Operand → Prop
  | time p => p.IsOrdinary good
  | value _ | element _ | property _ _ => True

structure Comparison.IsOrdinary (good : Millis → Prop) (c : Comparison) : Prop where
  lhs : c.lhs.IsOrdinary good
  rhs : c.rhs.IsOrdinary good

namespace Predicate

def IsOrdinary (good : Millis → Prop) (p : Predicate) : Prop :=
  ∀ c ∈ p.atoms, c.IsOrdinary good

theorem isOrdinary_compare {p q : TimePoint} {op : Comparator} (hp : p.IsOrdinary good)
    (hq : q.IsOrdinary good) : (p.compare op q).IsOrdinary good := by
  intro c hc
  obtain rfl := List.mem_singleton.1 hc
  exact ⟨hp, hq⟩

theorem isOrdinary_compare_instants {p q : TimePoint} {op : Comparator} (hp : p.IsInstant good)
    (hq : q.IsInstant good) : (p.compare op q).IsOrdinary good :=
  isOrdinary_compare (.instant hp) (.instant hq)

theorem isOrdinary_and {p q : Predicate} (hp : p.IsOrdinary good) (hq : q.IsOrdinary good) :
    IsOrdinary good (p.and q) := by
  intro c hc
  rcases List.mem_append.1 hc with hc | hc
  · exact hp c hc
  · exact hq c hc

theorem isOrdinary_conjoin {p : Predicate} {conditions : List Predicate}
    (hp : p.IsOrdinary good) (hconditions : ∀ q ∈ conditions, q.IsOrdinary good) :
    IsOrdinary good (p.conjoin conditions) := by
  intro c hc
  rw [Formula.atoms_conjoin, List.mem_append] at hc
  rcases hc with hc | hc
  · exact hp c hc
  · obtain ⟨q, hq, hcq⟩ := List.mem_flatMap.1 hc
    exact hconditions q hq c hcq

end Predicate

/-! ## Intervals -/

structure Interval.IsOrdinary (good : Millis → Prop) (i : Interval) : Prop where
  start : i.start.IsInstant good
  stop : i.stop.IsInstant good

structure Constrained.IsOrdinary (good : Millis → Prop) (i : Constrained Interval) : Prop where
  value : i.value.IsOrdinary good
  constraints : ∀ p ∈ i.constraints, p.IsOrdinary good

namespace Interval

variable {i j : Interval}

theorem isOrdinary_ofElement (name : String) (axis : Axis) :
    (ofElement name axis).IsOrdinary good where
  start := .selector name axis.start
  stop := .selector name axis.stop

theorem isOrdinary_overlap (hi : i.IsOrdinary good) (hj : j.IsOrdinary good) :
    (i.overlap j).IsOrdinary good where
  start := Aggregate.isInstant_pair .max hi.start hj.start
  stop := Aggregate.isInstant_pair .min hi.stop hj.stop

theorem isOrdinary_span (hi : i.IsOrdinary good) (hj : j.IsOrdinary good) :
    (i.span j).IsOrdinary good where
  start := Aggregate.isInstant_pair .min hi.start hj.start
  stop := Aggregate.isInstant_pair .max hi.stop hj.stop

theorem isOrdinary_wellFormed (hi : i.IsOrdinary good) : i.wellFormed.IsOrdinary good :=
  Predicate.isOrdinary_compare_instants hi.start hi.stop

theorem isOrdinary_containsPoint {p : TimePoint} (hi : i.IsOrdinary good)
    (hp : p.IsInstant good) : (i.containsPoint p).IsOrdinary good := by
  apply Predicate.isOrdinary_and
  · exact Predicate.isOrdinary_compare_instants hi.start hp
  · exact Predicate.isOrdinary_compare_instants hi.stop hp

end Interval

namespace Constrained

variable {i j : Constrained Interval}

theorem isOrdinary_free {i : Interval} (hi : i.IsOrdinary good) : (free i).IsOrdinary good where
  value := hi
  constraints := by simp [free]

theorem isOrdinary_literal {start stop : TimePoint} (hstart : start.IsInstant good)
    (hstop : stop.IsInstant good) : (Interval.literal start stop).IsOrdinary good where
  value := ⟨hstart, hstop⟩
  constraints := by
    intro p hp
    obtain rfl := List.mem_singleton.1 hp
    exact Interval.isOrdinary_wellFormed ⟨hstart, hstop⟩

/-- The conditions of a merged or a joined interval. -/
theorem isOrdinary_conditions (hi : i.IsOrdinary good) (hj : j.IsOrdinary good) :
    ∀ p ∈ (i.value.overlap j.value).wellFormed :: (i.constraints ++ j.constraints),
      p.IsOrdinary good := by
  have hoverlap : (i.value.overlap j.value).IsOrdinary good :=
    Interval.isOrdinary_overlap hi.value hj.value
  rw [List.forall_mem_cons, List.forall_mem_append]
  exact ⟨Interval.isOrdinary_wellFormed hoverlap, hi.constraints, hj.constraints⟩

theorem isOrdinary_merge (hi : i.IsOrdinary good) (hj : j.IsOrdinary good) :
    (Interval.merge i j).IsOrdinary good where
  value := Interval.isOrdinary_overlap hi.value hj.value
  constraints := isOrdinary_conditions hi hj

theorem isOrdinary_join (hi : i.IsOrdinary good) (hj : j.IsOrdinary good) :
    (Interval.join i j).IsOrdinary good where
  value := Interval.isOrdinary_span hi.value hj.value
  constraints := isOrdinary_conditions hi hj

end Constrained

/-! ## Relations -/

/-- Every length is an ordinary argument. -/
def Argument.IsOrdinary (good : Millis → Prop) : Argument → Prop
  | interval i => i.IsOrdinary good
  | timestamp p => p.IsInstant good
  | constant _ => True

theorem Argument.IsOrdinary.ends {i : Constrained Interval}
    (h : (Argument.interval i).IsOrdinary good) : i.value.IsOrdinary good :=
  Constrained.IsOrdinary.value h

theorem Argument.isOrdinary_constraints {args : List Argument}
    (hargs : ∀ a ∈ args, a.IsOrdinary good) :
    ∀ p ∈ args.flatMap Argument.constraints, p.IsOrdinary good := by
  intro p hp
  obtain ⟨a, ha, hpa⟩ := List.mem_flatMap.1 hp
  have harg := hargs a ha
  cases a with
  | interval i => exact Constrained.IsOrdinary.constraints harg p hpa
  | timestamp _ | constant _ => simp [constraints] at hpa

namespace IntervalRelation

variable {i : Interval}

theorem isOrdinary_compareLength {op : Comparator} {a : Argument} {p : Predicate}
    (h : compareLength op i a = some p) (hi : i.IsOrdinary good) (ha : a.IsOrdinary good) :
    p.IsOrdinary good := by
  have hlength : i.length.IsOrdinary good := .duration hi.start hi.stop
  cases a with
  | interval j =>
      obtain rfl := Option.some.inj h
      have hj : j.value.IsOrdinary good := ha.ends
      have hlength' : j.value.length.IsOrdinary good := .duration hj.start hj.stop
      apply Predicate.isOrdinary_and
      · apply Predicate.isOrdinary_and (Interval.isOrdinary_wellFormed hi)
        exact Predicate.isOrdinary_compare hlength hlength'
      · exact Interval.isOrdinary_wellFormed hj
  | constant length =>
      obtain rfl := Option.some.inj h
      apply Predicate.isOrdinary_and (Interval.isOrdinary_wellFormed hi)
      exact Predicate.isOrdinary_compare hlength (.constant length)
  | timestamp q => simp [compareLength] at h

theorem isOrdinary_predicate? {relation : IntervalRelation} {args : List Argument} {p : Predicate}
    (h : relation.predicate? i args = some p) (hi : i.IsOrdinary good)
    (hargs : ∀ a ∈ args, a.IsOrdinary good) : p.IsOrdinary good := by
  unfold predicate? at h
  split at h
  case h_1 j =>
      have hj := (List.forall_mem_singleton.1 hargs).ends
      have hoverlap := Interval.isOrdinary_overlap hi hj
      obtain rfl := Option.some.inj h
      exact Predicate.isOrdinary_compare_instants hoverlap.start hoverlap.stop
  case h_2 x y | h_3 x y =>
      rw [List.forall_mem_cons, List.forall_mem_singleton] at hargs
      obtain ⟨hx, hy⟩ := hargs
      obtain rfl := Option.some.inj h
      apply Predicate.isOrdinary_and
      · exact Predicate.isOrdinary_compare_instants hi.start hy
      · exact Predicate.isOrdinary_compare_instants hi.stop hx
  case h_4 j | h_6 j =>
      have hj := (List.forall_mem_singleton.1 hargs).ends
      obtain rfl := Option.some.inj h
      exact Predicate.isOrdinary_compare_instants hi.stop hj.start
  case h_5 x =>
      have hx : x.IsInstant good := hargs (.timestamp x) (List.mem_singleton_self _)
      obtain rfl := Option.some.inj h
      exact Predicate.isOrdinary_compare_instants hi.stop hx
  case h_7 j | h_9 j =>
      have hj := (List.forall_mem_singleton.1 hargs).ends
      obtain rfl := Option.some.inj h
      exact Predicate.isOrdinary_compare_instants hi.start hj.stop
  case h_8 x =>
      have hx : x.IsInstant good := hargs (.timestamp x) (List.mem_singleton_self _)
      obtain rfl := Option.some.inj h
      exact Predicate.isOrdinary_compare_instants hi.start hx
  case h_10 j | h_12 j =>
      have hj := (List.forall_mem_singleton.1 hargs).ends
      obtain rfl := Option.some.inj h
      apply Predicate.isOrdinary_and
      · exact Predicate.isOrdinary_compare_instants hi.start hj.start
      · exact Predicate.isOrdinary_compare_instants hi.stop hj.stop
  case h_11 x =>
      have hx : x.IsInstant good := hargs (.timestamp x) (List.mem_singleton_self _)
      obtain rfl := Option.some.inj h
      exact Interval.isOrdinary_containsPoint hi hx
  case h_13 a | h_14 a | h_15 a | h_16 a =>
      exact isOrdinary_compareLength h hi (List.forall_mem_singleton.1 hargs)
  case h_17 => simp at h

theorem isOrdinary_apply {relation : IntervalRelation} {caller : Constrained Interval}
    {args : List Argument} {p : Predicate} (h : relation.apply caller args = .ok p)
    (hcaller : caller.IsOrdinary good) (hargs : ∀ a ∈ args, a.IsOrdinary good) :
    p.IsOrdinary good := by
  unfold apply at h
  split at h
  case h_1 q hq =>
      obtain rfl := Except.ok.inj h
      apply Predicate.isOrdinary_conjoin (isOrdinary_predicate? hq hcaller.value hargs)
      rw [List.forall_mem_append]
      exact ⟨hcaller.constraints, Argument.isOrdinary_constraints hargs⟩
  case h_2 => simp at h

end IntervalRelation

namespace TimestampRelation

theorem isOrdinary_predicate? {relation : TimestampRelation} {caller : TimePoint}
    {args : List Argument} {p : Predicate} (h : relation.predicate? caller args = some p)
    (hcaller : caller.IsInstant good) (hargs : ∀ a ∈ args, a.IsOrdinary good) :
    p.IsOrdinary good := by
  unfold predicate? at h
  split at h
  case h_1 x | h_2 x | h_4 x | h_6 x =>
      have hx : x.IsInstant good := hargs (.timestamp x) (List.mem_singleton_self _)
      obtain rfl := Option.some.inj h
      exact Predicate.isOrdinary_compare_instants hcaller hx
  case h_3 i =>
      have hi := (List.forall_mem_singleton.1 hargs).ends
      obtain rfl := Option.some.inj h
      exact Predicate.isOrdinary_compare_instants hcaller hi.start
  case h_5 i =>
      have hi := (List.forall_mem_singleton.1 hargs).ends
      obtain rfl := Option.some.inj h
      exact Predicate.isOrdinary_compare_instants hcaller hi.stop
  case h_7 => simp at h

theorem isOrdinary_apply {relation : TimestampRelation} {caller : TimePoint}
    {args : List Argument} {p : Predicate} (h : relation.apply caller args = .ok p)
    (hcaller : caller.IsInstant good) (hargs : ∀ a ∈ args, a.IsOrdinary good) :
    p.IsOrdinary good := by
  unfold apply at h
  split at h
  case h_1 q hq =>
      obtain rfl := Except.ok.inj h
      exact Predicate.isOrdinary_conjoin (isOrdinary_predicate? hq hcaller hargs)
        (Argument.isOrdinary_constraints hargs)
  case h_2 => simp at h

end TimestampRelation
end TemporalPattern
