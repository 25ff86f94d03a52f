import TemporalPattern.Filter.Accepted
import TemporalPattern.Proofs.Result

/-!
# Arguments that a relation takes

A relation decides by the kinds of its arguments alone whether it takes them, and it takes exactly
those of the shape that it names in its error.  Its name leads back to it.
-/

namespace TemporalPattern

/-! ## Kinds of arguments -/

namespace Argument

def kind : Argument → ArgumentKind
  | interval _ => .interval
  | timestamp _ => .timestamp
  | constant _ => .constant

variable {a : Argument} {args : List Argument}

theorem kind_eq_interval : a.kind = .interval ↔ ∃ i, a = .interval i := by
  cases a <;> simp [kind]

theorem kind_eq_timestamp : a.kind = .timestamp ↔ ∃ x, a = .timestamp x := by
  cases a <;> simp [kind]

theorem kind_eq_constant : a.kind = .constant ↔ ∃ length, a = .constant length := by
  cases a <;> simp [kind]

end Argument

/-! ## Arguments that a relation takes -/

namespace ArgumentShape

variable {args : List Argument}

theorem mem_kinds_interval :
    args.map Argument.kind ∈ interval.kinds ↔ ∃ i, args = [.interval i] := by
  simp [kinds, Argument.kind_eq_interval]

theorem mem_kinds_timestamp :
    args.map Argument.kind ∈ timestamp.kinds ↔ ∃ x, args = [.timestamp x] := by
  simp [kinds, Argument.kind_eq_timestamp]

theorem mem_kinds_twoTimestamps :
    args.map Argument.kind ∈ twoTimestamps.kinds ↔
      ∃ x y, args = [.timestamp x, .timestamp y] := by
  simp [kinds, List.map_eq_cons_iff, Argument.kind_eq_timestamp]

theorem mem_kinds_intervalOrTimestamp :
    args.map Argument.kind ∈ intervalOrTimestamp.kinds ↔
      (∃ i, args = [.interval i]) ∨ ∃ x, args = [.timestamp x] := by
  simp [kinds, Argument.kind_eq_interval, Argument.kind_eq_timestamp]

theorem mem_kinds_intervalOrConstant :
    args.map Argument.kind ∈ intervalOrConstant.kinds ↔
      (∃ i, args = [.interval i]) ∨ ∃ length, args = [.constant length] := by
  simp [kinds, Argument.kind_eq_interval, Argument.kind_eq_constant]

end ArgumentShape

namespace IntervalRelation

variable {relation : IntervalRelation} {i : Interval} {args : List Argument}

theorem exists_predicate?_iff :
    (∃ p, relation.predicate? i args = some p) ↔
      args.map Argument.kind ∈ relation.expected.kinds := by
  constructor
  · rintro ⟨p, h⟩
    unfold predicate? at h
    split at h
    case h_1 | h_2 | h_3 | h_4 | h_5 | h_6 | h_7 | h_8 | h_9 | h_10 | h_11 | h_12 =>
      simp [expected, ArgumentShape.kinds, Argument.kind]
    case h_13 arg | h_14 arg | h_15 arg | h_16 arg =>
      cases arg with
      | timestamp x => simp [compareLength] at h
      | _ => simp [expected, ArgumentShape.kinds, Argument.kind]
    case h_17 => simp at h
  · intro h
    cases relation with
    | overlaps | immediatelyPrecedes | immediatelySucceeds | equals =>
        obtain ⟨j, rfl⟩ := ArgumentShape.mem_kinds_interval.1 h
        exact ⟨_, rfl⟩
    | fromTo | between =>
        obtain ⟨x, y, rfl⟩ := ArgumentShape.mem_kinds_twoTimestamps.1 h
        exact ⟨_, rfl⟩
    | precedes | succeeds | contains =>
        obtain ⟨j, rfl⟩ | ⟨x, rfl⟩ := ArgumentShape.mem_kinds_intervalOrTimestamp.1 h
        · exact ⟨_, rfl⟩
        · exact ⟨_, rfl⟩
    | longerThan | shorterThan | lengthAtLeast | lengthAtMost =>
        obtain ⟨j, rfl⟩ | ⟨length, rfl⟩ := ArgumentShape.mem_kinds_intervalOrConstant.1 h
        · exact ⟨_, rfl⟩
        · exact ⟨_, rfl⟩

theorem exists_apply_iff {caller : Constrained Interval} :
    (∃ p, relation.apply caller args = .ok p) ↔
      args.map Argument.kind ∈ relation.expected.kinds := by
  rw [← exists_predicate?_iff (i := caller.value)]
  unfold apply
  split <;> simp_all

theorem ofName_eq_ok {text : String} : ofName text = .ok relation ↔ relation.name = text := by
  constructor
  · intro h
    unfold ofName at h
    split at h
    case h_1 r hr =>
      obtain rfl := Except.ok.inj h
      simpa using List.find?_some hr
    case h_2 => simp at h
  · rintro rfl
    cases relation <;> rfl

end IntervalRelation

namespace TimestampRelation

variable {relation : TimestampRelation} {caller : TimePoint} {args : List Argument}

theorem exists_predicate?_iff :
    (∃ p, relation.predicate? caller args = some p) ↔
      args.map Argument.kind ∈ relation.expected.kinds := by
  constructor
  · rintro ⟨p, h⟩
    unfold predicate? at h
    split at h
    case h_1 | h_2 | h_3 | h_4 | h_5 | h_6 =>
      simp [expected, ArgumentShape.kinds, Argument.kind]
    case h_7 => simp at h
  · intro h
    cases relation with
    | before | after =>
        obtain ⟨x, rfl⟩ := ArgumentShape.mem_kinds_timestamp.1 h
        exact ⟨_, rfl⟩
    | precedes | succeeds =>
        obtain ⟨i, rfl⟩ | ⟨x, rfl⟩ := ArgumentShape.mem_kinds_intervalOrTimestamp.1 h
        · exact ⟨_, rfl⟩
        · exact ⟨_, rfl⟩

theorem exists_apply_iff :
    (∃ p, relation.apply caller args = .ok p) ↔
      args.map Argument.kind ∈ relation.expected.kinds := by
  have hpredicate : (∃ p, relation.predicate? caller args = some p) ↔
      args.map Argument.kind ∈ relation.expected.kinds := exists_predicate?_iff
  rw [← hpredicate]
  unfold apply
  split <;> simp_all

theorem ofName_eq_ok {text : String} : ofName text = .ok relation ↔ relation.name = text := by
  constructor
  · intro h
    unfold ofName at h
    split at h
    case h_1 r hr =>
      obtain rfl := Except.ok.inj h
      simpa using List.find?_some hr
    case h_2 => simp at h
  · rintro rfl
    cases relation <;> rfl

end TimestampRelation

end TemporalPattern
