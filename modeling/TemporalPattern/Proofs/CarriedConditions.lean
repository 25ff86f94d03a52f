import TemporalPattern.Filter.Conditions
import TemporalPattern.Proofs.Result

/-!
# Calls carry all conditions

The conditions of an interval travel beside it from where it is written to the relation that it is
an operand of.  A relation takes no notice of them when it makes its own predicate, and adds them
after it, those of the caller first.
-/

namespace TemporalPattern

variable {s : Scope}

/-! ## Terms -/

namespace IntervalTerm

variable {i : IntervalTerm} {a : Interval} {cs : List Predicate}

theorem denotes_of_elaborate {c : Constrained Interval} (h : i.elaborate s = .ok c) :
    i.Denotes s c.value c.constraints := by
  induction i generalizing c with
  | selector name? axis =>
      simp only [elaborate, bind_eq_ok, pure_eq_ok] at h
      obtain ⟨name, hname, rfl⟩ := h
      exact .selector axis hname
  | literal start stop =>
      simp only [elaborate, bind_eq_ok, pure_eq_ok] at h
      obtain ⟨p, hp, q, hq, rfl⟩ := h
      exact .literal hp hq
  | merge i j ihi ihj =>
      simp only [elaborate, bind_eq_ok, pure_eq_ok] at h
      obtain ⟨a, ha, b, hb, rfl⟩ := h
      exact .merge (ihi ha) (ihj hb)
  | join i j ihi ihj =>
      simp only [elaborate, bind_eq_ok, pure_eq_ok] at h
      obtain ⟨a, ha, b, hb, rfl⟩ := h
      exact .join (ihi ha) (ihj hb)

theorem elaborate_of_denotes (h : i.Denotes s a cs) : i.elaborate s = .ok ⟨a, cs⟩ := by
  induction h with
  | selector axis hname =>
      rw [elaborate, hname]
      rfl
  | literal hp hq =>
      rw [elaborate, hp, hq]
      rfl
  | merge _ _ ihi ihj =>
      rw [elaborate, ihi, ihj]
      rfl
  | join _ _ ihi ihj =>
      rw [elaborate, ihi, ihj]
      rfl

theorem length_of_denotes (h : i.Denotes s a cs) : cs.length = i.conditionCount := by
  induction h with
  | selector axis hname => rfl
  | literal hp hq => rfl
  | merge _ _ ihi ihj | join _ _ ihi ihj =>
      rw [List.length_cons, List.length_append, ihi, ihj, conditionCount, Nat.add_comm]

end IntervalTerm

/-- The argument without its conditions. -/
def Argument.bare : Argument → Argument
  | interval i => .interval (.free i.value)
  | timestamp p => .timestamp p
  | constant length => .constant length

theorem Argument.constraints_bare (a : Argument) : a.bare.constraints = [] := by
  cases a <;> rfl

namespace ArgumentTerm

variable {t : ArgumentTerm} {ts : List ArgumentTerm} {b : Argument} {bs : List Argument}
  {cs : List Predicate}

theorem denotes_of_elaborate {a : Argument} (h : t.elaborate s = .ok a) :
    t.Denotes s a.bare a.constraints := by
  cases t with
  | interval i =>
      simp only [elaborate, bind_eq_ok, pure_eq_ok] at h
      obtain ⟨c, hc, rfl⟩ := h
      exact .interval (IntervalTerm.denotes_of_elaborate hc)
  | timestamp t =>
      simp only [elaborate, bind_eq_ok, pure_eq_ok] at h
      obtain ⟨p, hp, rfl⟩ := h
      exact .timestamp hp
  | length l =>
      simp only [elaborate, bind_eq_ok, pure_eq_ok] at h
      obtain ⟨length, hlength, rfl⟩ := h
      exact .length hlength

theorem elaborate_of_denotes (h : t.Denotes s b cs) :
    ∃ a, t.elaborate s = .ok a ∧ a.bare = b ∧ a.constraints = cs := by
  cases h with
  | @interval i a cs h =>
      refine ⟨.interval ⟨a, cs⟩, ?_, rfl, rfl⟩
      rw [elaborate, IntervalTerm.elaborate_of_denotes h]
      rfl
  | @timestamp t p h =>
      refine ⟨.timestamp p, ?_, rfl, rfl⟩
      rw [elaborate, h]
      rfl
  | @length l length h =>
      refine ⟨.constant length, ?_, rfl, rfl⟩
      rw [elaborate, h]
      rfl

theorem length_of_denotes (h : t.Denotes s b cs) : cs.length = t.conditionCount := by
  cases h with
  | interval h => exact IntervalTerm.length_of_denotes h
  | timestamp _ | length _ => rfl

/-! ## Lists of arguments -/

theorem denoteEach_iff : DenoteEach s ts bs cs ↔ ∃ args, ts.mapM (elaborate s) = .ok args ∧
    args.map Argument.bare = bs ∧ args.flatMap Argument.constraints = cs := by
  constructor
  · intro h
    induction h with
    | nil => exact ⟨[], rfl, rfl, rfl⟩
    | cons h _ ih =>
        obtain ⟨a, ha, rfl, rfl⟩ := elaborate_of_denotes h
        obtain ⟨args, hargs, rfl, rfl⟩ := ih
        refine ⟨a :: args, ?_, rfl, rfl⟩
        rw [List.mapM_cons, ha, hargs]
        rfl
  · rintro ⟨args, hargs, rfl, rfl⟩
    rw [mapM_eq_ok] at hargs
    induction hargs with
    | nil => exact .nil
    | cons ha _ ih => exact .cons (denotes_of_elaborate ha) ih

theorem length_of_denoteEach (h : DenoteEach s ts bs cs) :
    cs.length = conditionCountEach ts := by
  induction h with
  | nil => rfl
  | cons h _ ih =>
      rw [List.length_append, length_of_denotes h, ih, conditionCountEach]

end ArgumentTerm

/-! ## Relations -/

theorem Argument.flatMap_constraints_bare (args : List Argument) :
    (args.map bare).flatMap constraints = [] := by
  simp [constraints_bare]

namespace IntervalRelation

variable {relation : IntervalRelation} {caller : Constrained Interval} {args : List Argument}
  {p : Predicate}

theorem predicate?_bare (relation : IntervalRelation) (i : Interval) (args : List Argument) :
    relation.predicate? i (args.map Argument.bare) = relation.predicate? i args := by
  -- no relation takes more than two arguments
  rcases args with _ | ⟨a, _ | ⟨b, _ | ⟨c, args⟩⟩⟩
  · rfl
  · cases relation <;> cases a <;> rfl
  · cases relation <;> cases a <;> cases b <;> rfl
  · cases relation <;> cases a <;> cases b <;> rfl

/-- A relation adds conditions to what it says without any. -/
theorem apply_eq_ok_iff : relation.apply caller args = .ok p ↔
    ∃ own, relation.apply (.free caller.value) (args.map Argument.bare) = .ok own ∧
      p = (caller.constraints ++ args.flatMap Argument.constraints).foldl .and own := by
  simp only [apply, Constrained.free, predicate?_bare, Argument.flatMap_constraints_bare]
  cases relation.predicate? caller.value args with
  | none => simp
  | some own => simp [Formula.conjoin, eq_comm]

end IntervalRelation

namespace TimestampRelation

variable {relation : TimestampRelation} {caller : TimePoint} {args : List Argument} {p : Predicate}

theorem predicate?_bare (relation : TimestampRelation) (caller : TimePoint)
    (args : List Argument) :
    relation.predicate? caller (args.map Argument.bare) = relation.predicate? caller args := by
  rcases args with _ | ⟨a, _ | ⟨b, args⟩⟩
  · rfl
  · cases relation <;> cases a <;> rfl
  · cases relation <;> cases a <;> rfl

theorem apply_eq_ok_iff : relation.apply caller args = .ok p ↔
    ∃ own, relation.apply caller (args.map Argument.bare) = .ok own ∧
      p = (args.flatMap Argument.constraints).foldl .and own := by
  simp only [apply, predicate?_bare, Argument.flatMap_constraints_bare]
  cases relation.predicate? caller args with
  | none => simp
  | some own => simp [Formula.conjoin, eq_comm]

end TimestampRelation

/-! ## Calls -/

/-- The predicate of a call is what its relation says about the bare intervals, and then, nested to
the left, the conditions of the caller and those of the arguments, all of them once and in order.
There is one for every interval in the call that is given or combined. -/
theorem Filter.calls_carry_all_conditions (s : Scope) (function : String)
    (terms : List ArgumentTerm) (p : Predicate) :
    (∀ caller : IntervalTerm, (intervalCall caller function terms).elaborate s = .ok p ↔
      ∃ relation i cs args ds own, IntervalRelation.ofName function = .ok relation ∧
        caller.Denotes s i cs ∧ ArgumentTerm.DenoteEach s terms args ds ∧
        relation.apply (.free i) args = .ok own ∧ p = (cs ++ ds).foldl .and own ∧
        (cs ++ ds).length = caller.conditionCount + ArgumentTerm.conditionCountEach terms) ∧
    (∀ caller : TimeTerm, (timestampCall caller function terms).elaborate s = .ok p ↔
      ∃ relation point args ds own, TimestampRelation.ofName function = .ok relation ∧
        caller.elaborate s = .ok point ∧ ArgumentTerm.DenoteEach s terms args ds ∧
        relation.apply point args = .ok own ∧ p = ds.foldl .and own ∧
        ds.length = ArgumentTerm.conditionCountEach terms) := by
  constructor
  · intro caller
    simp only [elaborate, bind_eq_ok]
    constructor
    · rintro ⟨relation, hrelation, c, hc, args, hargs, h⟩
      obtain ⟨own, hown, hp⟩ := IntervalRelation.apply_eq_ok_iff.1 h
      have hcaller := IntervalTerm.denotes_of_elaborate hc
      have heach := ArgumentTerm.denoteEach_iff.2 ⟨args, hargs, rfl, rfl⟩
      refine ⟨relation, _, _, _, _, own, hrelation, hcaller, heach, hown, hp, ?_⟩
      rw [List.length_append, IntervalTerm.length_of_denotes hcaller,
        ArgumentTerm.length_of_denoteEach heach]
    · rintro ⟨relation, i, cs, bs, ds, own, hrelation, hcaller, heach, hown, hp, -⟩
      obtain ⟨args, hargs, rfl, rfl⟩ := ArgumentTerm.denoteEach_iff.1 heach
      have hc := IntervalTerm.elaborate_of_denotes hcaller
      have h : relation.apply ⟨i, cs⟩ args = .ok p :=
        IntervalRelation.apply_eq_ok_iff.2 ⟨own, hown, hp⟩
      exact ⟨relation, hrelation, ⟨i, cs⟩, hc, args, hargs, h⟩
  · intro caller
    simp only [elaborate, bind_eq_ok]
    constructor
    · rintro ⟨relation, hrelation, point, hpoint, args, hargs, h⟩
      obtain ⟨own, hown, hp⟩ := TimestampRelation.apply_eq_ok_iff.1 h
      have heach := ArgumentTerm.denoteEach_iff.2 ⟨args, hargs, rfl, rfl⟩
      exact ⟨relation, point, _, _, own, hrelation, hpoint, heach, hown, hp,
        ArgumentTerm.length_of_denoteEach heach⟩
    · rintro ⟨relation, point, bs, ds, own, hrelation, hpoint, heach, hown, hp, -⟩
      obtain ⟨args, hargs, rfl, rfl⟩ := ArgumentTerm.denoteEach_iff.1 heach
      have h := TimestampRelation.apply_eq_ok_iff.2 ⟨own, hown, hp⟩
      exact ⟨relation, hrelation, point, hpoint, args, hargs, h⟩

/-- The caller is a given interval, and the argument has one merge inside a join. -/
theorem Filter.calls_carry_all_conditions_of_merge_in_join :
    let s : Scope := .ofNames ["a", "b"] 0
    let day : Interval := ⟨.literal 0, .literal 86400000⟩
    let a : Interval := .ofElement "a" .transaction
    let b : Interval := .ofElement "b" .valid
    let pattern : Interval := .global .transaction
    let caller : IntervalTerm := .literal (.literal "1970-01-01") (.literal "1970-01-02T00:00")
    let joined : IntervalTerm :=
      .join (.merge (.selector (some "a") .transaction) (.selector (some "b") .valid))
        (.selector none .transaction)
    ∃ own, IntervalRelation.overlaps.apply (.free day)
        [.interval (.free ((a.overlap b).span pattern))] = .ok own ∧
      (intervalCall caller "overlaps" [.interval joined]).elaborate s =
        .ok (.and (.and (.and own day.wellFormed) ((a.overlap b).meet pattern)) (a.meet b)) := by
  intro s day a b pattern caller joined
  have hcaller : caller.Denotes s day [day.wellFormed] := by
    have hstart : (TimeTerm.literal "1970-01-01").elaborate s = .ok (.literal 0) := by
      with_unfolding_all rfl
    have hstop : (TimeTerm.literal "1970-01-02T00:00").elaborate s = .ok (.literal 86400000) := by
      with_unfolding_all rfl
    exact .literal hstart hstop
  have hjoined : joined.Denotes s ((a.overlap b).span pattern)
      [(a.overlap b).meet pattern, a.meet b] :=
    .join (.merge (.selector .transaction rfl) (.selector .valid rfl)) (.selector .transaction rfl)
  have hargument : ArgumentTerm.DenoteEach s [.interval joined]
      [.interval (.free ((a.overlap b).span pattern))] [(a.overlap b).meet pattern, a.meet b] :=
    .cons (.interval hjoined) .nil
  refine ⟨_, rfl, ((calls_carry_all_conditions s "overlaps" _ _).1 caller).2 ?_⟩
  exact ⟨.overlaps, day, _, _, _, _, rfl, hcaller, hargument, rfl, rfl, rfl⟩

end TemporalPattern
