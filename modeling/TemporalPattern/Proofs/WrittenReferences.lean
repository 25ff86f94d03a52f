import TemporalPattern.Filter.Accepted
import TemporalPattern.Proofs.References

/-!
# References of an elaborated filter

What a filter elaborates to refers to what is written in it, the reserved name being taken for the
whole pattern.  A relation may look at one end of an interval only; that loses no reference, since
either end together with the conditions of the interval has all of them.
-/

namespace TemporalPattern

variable {s : Scope} {r : Reference}

/-! ## Predicates that are built -/

namespace Predicate

@[simp] theorem references_compare (p : TimePoint) (op : Comparator) (q : TimePoint) :
    references (p.compare op q) = p.references ++ q.references := by
  simp [references, TimePoint.compare, Formula.atoms, Comparison.ofTimes, Comparison.references,
    Operand.references]

@[simp] theorem references_and (p q : Predicate) :
    references (p.and q) = references p ++ references q := by
  simp [references, Formula.atoms]

@[simp] theorem references_conjoin (p : Predicate) (conditions : List Predicate) :
    references (p.conjoin conditions) = references p ++ conditions.flatMap references := by
  simp only [references, Formula.atoms_conjoin, List.flatMap_append, List.flatMap_assoc]
  rfl

end Predicate

/-! ## Intervals -/

namespace Constrained

variable {c d : Constrained Interval}

/-- What the conditions of an interval refer to. -/
def conditionReferences (c : Constrained Interval) : List Reference :=
  c.constraints.flatMap Predicate.references

def references (c : Constrained Interval) : List Reference :=
  c.value.start.references ++ c.value.stop.references ++ c.conditionReferences

theorem mem_references : r ∈ c.references ↔
    (r ∈ c.value.start.references ∨ r ∈ c.value.stop.references) ∨ r ∈ c.conditionReferences := by
  rw [references, List.mem_append, List.mem_append]

/-- What only one of the ends refers to, some condition refers to as well. -/
def EndsAgree (c : Constrained Interval) : Prop :=
  ∀ r, r ∉ c.conditionReferences → (r ∈ c.value.stop.references ↔ r ∈ c.value.start.references)

theorem EndsAgree.mem_references (h : c.EndsAgree) :
    r ∈ c.references ↔ r ∈ c.value.start.references ∨ r ∈ c.conditionReferences := by
  rw [Constrained.mem_references]
  by_cases hcondition : r ∈ c.conditionReferences
  · simp only [hcondition, or_true]
  · rw [h r hcondition, or_self]

theorem endsAgree_ofElement (name : String) (axis : Axis) :
    (free (Interval.ofElement name axis)).EndsAgree :=
  fun _ _ => Iff.rfl

/-- Conditions that refer to all there is leave nothing to the ends. -/
theorem endsAgree_of_conditions (h : ∀ r ∈ c.references, r ∈ c.conditionReferences) :
    c.EndsAgree := by
  intro r hcondition
  have hno : r ∉ c.references := fun hr => hcondition (h r hr)
  rw [mem_references, not_or, not_or] at hno
  exact iff_of_false hno.1.2 hno.1.1

theorem mem_conditionReferences_literal {p q : TimePoint} :
    r ∈ (Interval.literal p q).conditionReferences ↔ r ∈ p.references ∨ r ∈ q.references := by
  simp [conditionReferences, Interval.literal, Interval.wellFormed]

theorem mem_references_literal {p q : TimePoint} :
    r ∈ (Interval.literal p q).references ↔ r ∈ p.references ∨ r ∈ q.references := by
  rw [mem_references, mem_conditionReferences_literal]
  exact or_self_iff

/-- The condition that two intervals overlap or meet refers to all of their ends. -/
theorem mem_conditionReferences_merge : r ∈ (Interval.merge c d).conditionReferences ↔
    r ∈ c.references ∨ r ∈ d.references := by
  have hconditions : (Interval.merge c d).constraints =
      (c.value.overlap d.value).wellFormed :: (c.constraints ++ d.constraints) := rfl
  simp only [conditionReferences, hconditions, Interval.wellFormed, Interval.overlap,
    mem_references, List.flatMap_cons, List.flatMap_append, List.mem_append,
    Predicate.references_compare, TimePoint.references_aggregate, List.flatMap_nil,
    List.not_mem_nil, or_false]
  tauto

theorem mem_references_merge :
    r ∈ (Interval.merge c d).references ↔ r ∈ c.references ∨ r ∈ d.references := by
  have hvalue : (Interval.merge c d).value = c.value.overlap d.value := rfl
  rw [mem_references, mem_conditionReferences_merge, or_iff_right_iff_imp]
  simp only [hvalue, Interval.overlap, TimePoint.references_aggregate, List.flatMap_cons,
    List.flatMap_nil, List.append_nil, List.mem_append, mem_references]
  tauto

theorem endsAgree_literal (p q : TimePoint) : (Interval.literal p q).EndsAgree :=
  endsAgree_of_conditions fun _ hr =>
    mem_conditionReferences_literal.2 (mem_references_literal.1 hr)

theorem endsAgree_merge : (Interval.merge c d).EndsAgree :=
  endsAgree_of_conditions fun _ hr =>
    mem_conditionReferences_merge.2 (mem_references_merge.1 hr)

/-- A join has the ends of a merge with the aggregates exchanged. -/
theorem mem_references_join :
    r ∈ (Interval.join c d).references ↔ r ∈ c.references ∨ r ∈ d.references :=
  mem_references_merge

theorem endsAgree_join : (Interval.join c d).EndsAgree :=
  endsAgree_of_conditions fun _ hr =>
    mem_conditionReferences_merge.2 (mem_references_merge.1 hr)

end Constrained

/-! ## Relations -/

namespace Argument

def references : Argument → List Reference
  | interval c => c.references
  | timestamp p => p.references
  | constant _ => []

/-- What the conditions of an interval refer to. -/
def conditionReferences (a : Argument) : List Reference :=
  a.constraints.flatMap Predicate.references

/-- References of the start of an interval or of a time point. -/
def startReferences : Argument → List Reference
  | interval c => c.value.start.references
  | timestamp p => p.references
  | constant _ => []

def EndsAgree : Argument → Prop
  | interval c => c.EndsAgree
  | timestamp _ | constant _ => True

variable {a : Argument} {args : List Argument}

theorem EndsAgree.mem_references (h : a.EndsAgree) :
    r ∈ a.references ↔ r ∈ a.startReferences ∨ r ∈ a.conditionReferences := by
  cases a with
  | interval c => exact Constrained.EndsAgree.mem_references h
  | timestamp p => exact (or_iff_left (List.not_mem_nil (a := r))).symm
  | constant length => exact (or_self_iff).symm

theorem exists_mem_references (hargs : ∀ a ∈ args, a.EndsAgree) :
    (∃ a ∈ args, r ∈ a.references) ↔
      (∃ a ∈ args, r ∈ a.startReferences) ∨ r ∈ args.flatMap conditionReferences := by
  rw [List.mem_flatMap, ← exists_or]
  apply exists_congr
  intro a
  rw [← and_or_left]
  exact and_congr_right fun ha => (hargs a ha).mem_references

/-- Where no condition of an argument has the reference, both ends have it or none. -/
theorem stop_iff_start (hargs : ∀ a ∈ args, a.EndsAgree)
    (hcondition : r ∉ args.flatMap conditionReferences) (c : Constrained Interval)
    (hc : interval c ∈ args) :
    r ∈ c.value.stop.references ↔ r ∈ c.value.start.references :=
  hargs _ hc r fun hr => hcondition (List.mem_flatMap.2 ⟨_, hc, hr⟩)

end Argument

namespace IntervalRelation

variable {relation : IntervalRelation} {args : List Argument} {p : Predicate}

theorem mem_references_compareLength {op : Comparator} {i : Interval} {a : Argument}
    (h : compareLength op i a = some p)
    (hi : r ∈ i.stop.references ↔ r ∈ i.start.references)
    (ha : ∀ j, .interval j = a →
      (r ∈ j.value.stop.references ↔ r ∈ j.value.start.references)) :
    r ∈ Predicate.references p ↔ r ∈ i.start.references ∨ r ∈ a.startReferences := by
  unfold compareLength at h
  split at h
  case h_1 j =>
    obtain rfl := Option.some.inj h
    simp [Interval.wellFormed, Interval.length, Argument.startReferences, hi, ha j rfl]
  case h_2 length =>
    obtain rfl := Option.some.inj h
    simp [Interval.wellFormed, Interval.length, Argument.startReferences, hi]
  case h_3 => simp at h

theorem mem_references_predicate? {i : Interval} (h : relation.predicate? i args = some p)
    (hi : r ∈ i.stop.references ↔ r ∈ i.start.references)
    (hargs : ∀ j, .interval j ∈ args →
      (r ∈ j.value.stop.references ↔ r ∈ j.value.start.references)) :
    r ∈ Predicate.references p ↔
      r ∈ i.start.references ∨ ∃ a ∈ args, r ∈ a.startReferences := by
  unfold predicate? at h
  split at h
  case h_17 => simp at h
  case h_13 a | h_14 a | h_15 a | h_16 a =>
    have ha := mem_references_compareLength h hi fun j hj => hargs j (by simp [hj])
    simp [ha]
  case h_4 j | h_6 j | h_7 j | h_9 j =>
    have hj := hargs j (List.mem_singleton_self _)
    obtain rfl := Option.some.inj h
    simp [Argument.startReferences, hi, hj]
  case h_1 j | h_10 j | h_12 j =>
    have hj := hargs j (List.mem_singleton_self _)
    obtain rfl := Option.some.inj h
    simp only [Interval.overlap, Predicate.references_and, Predicate.references_compare,
      TimePoint.references_aggregate, List.flatMap_cons, List.flatMap_nil, List.append_nil,
      List.mem_append, List.mem_singleton, exists_eq_left, Argument.startReferences, hi, hj]
    tauto
  case h_5 x | h_8 x =>
    obtain rfl := Option.some.inj h
    simp [Argument.startReferences, hi]
  case h_11 x =>
    obtain rfl := Option.some.inj h
    simp only [Interval.containsPoint, Predicate.references_and, Predicate.references_compare,
      List.mem_append, List.mem_singleton, exists_eq_left, Argument.startReferences, hi]
    tauto
  case h_2 x y | h_3 x y =>
    obtain rfl := Option.some.inj h
    simp only [Predicate.references_and, Predicate.references_compare, List.mem_append,
      List.mem_pair, exists_eq_or_imp, exists_eq_left, Argument.startReferences, hi]
    tauto

theorem mem_references_apply {caller : Constrained Interval}
    (h : relation.apply caller args = .ok p) (hcaller : caller.EndsAgree)
    (hargs : ∀ a ∈ args, a.EndsAgree) :
    r ∈ Predicate.references p ↔ r ∈ caller.references ∨ ∃ a ∈ args, r ∈ a.references := by
  rw [hcaller.mem_references, Argument.exists_mem_references hargs]
  unfold apply at h
  split at h
  case h_2 => simp at h
  case h_1 q hq =>
    obtain rfl := Except.ok.inj h
    rw [Predicate.references_conjoin, List.flatMap_append, List.flatMap_assoc, List.mem_append,
      List.mem_append]
    -- either a condition has the reference, or the ends of every interval agree on it
    by_cases hc : r ∈ caller.conditionReferences
    · exact iff_of_true (.inr (.inl hc)) (.inl (.inr hc))
    by_cases ha : r ∈ args.flatMap Argument.conditionReferences
    · exact iff_of_true (.inr (.inr ha)) (.inr (.inr ha))
    have hq' := mem_references_predicate? hq (hcaller r hc) (Argument.stop_iff_start hargs ha)
    rw [hq', or_iff_left hc, or_iff_left ha, or_iff_left]
    exact not_or.2 ⟨hc, ha⟩

end IntervalRelation

namespace TimestampRelation

variable {relation : TimestampRelation} {caller : TimePoint} {args : List Argument}
  {p : Predicate}

theorem mem_references_predicate? (h : relation.predicate? caller args = some p)
    (hargs : ∀ c, .interval c ∈ args →
      (r ∈ c.value.stop.references ↔ r ∈ c.value.start.references)) :
    r ∈ Predicate.references p ↔ r ∈ caller.references ∨ ∃ a ∈ args, r ∈ a.startReferences := by
  unfold predicate? at h
  split at h
  case h_7 => simp at h
  case h_1 | h_2 | h_4 | h_6 =>
    obtain rfl := Option.some.inj h
    simp [Argument.startReferences]
  case h_3 c | h_5 c =>
    have hc := hargs c (List.mem_singleton_self _)
    obtain rfl := Option.some.inj h
    simp [Argument.startReferences, hc]

theorem mem_references_apply (h : relation.apply caller args = .ok p)
    (hargs : ∀ a ∈ args, a.EndsAgree) :
    r ∈ Predicate.references p ↔ r ∈ caller.references ∨ ∃ a ∈ args, r ∈ a.references := by
  rw [Argument.exists_mem_references hargs]
  unfold apply at h
  split at h
  case h_2 => simp at h
  case h_1 q hq =>
    obtain rfl := Except.ok.inj h
    rw [Predicate.references_conjoin, List.flatMap_assoc, List.mem_append]
    by_cases ha : r ∈ args.flatMap Argument.conditionReferences
    · exact iff_of_true (.inr ha) (.inr (.inr ha))
    have hq' := mem_references_predicate? hq (Argument.stop_iff_start hargs ha)
    rw [hq', or_iff_left ha]
    exact or_iff_left ha

end TimestampRelation

theorem Predicate.mem_references_asOf {name? : Option String} {p : TimePoint} :
    r ∈ references (asOf name? p) ↔
      r = .ofSelector (name?.getD globalVariable) ∨ r ∈ p.references := by
  simp only [asOf, Interval.containsPoint, Interval.ofElement, references_and, references_compare,
    TimePoint.references_selector, List.mem_append, List.mem_singleton]
  exact or_self_iff

/-! ## Elaboration -/

namespace Scope

variable {name name' : String} {name? name?' : Option String}

theorem eq_of_lookup (h : s.lookup name = .ok name') : name = name' := by
  unfold lookup at h
  split at h <;> simp_all

theorem encoded_ofWritten_of_target (h : s.target name? = .ok name) :
    (Reference.ofWritten name?).encoded = .ofSelector name := by
  cases name? with
  | some written =>
      obtain rfl := eq_of_lookup h
      rfl
  | none =>
      obtain rfl := Except.ok.inj h
      exact (Reference.ofSelector_eq_pattern.2 rfl).symm

theorem eq_of_mapM_lookup (h : name?.mapM s.lookup = .ok name?') : name? = name?' := by
  cases name? with
  | none => exact Except.ok.inj h
  | some written =>
      have hmap : (some written).mapM s.lookup = s.lookup written >>= fun x => .ok (some x) := rfl
      rw [hmap, bind_eq_ok] at h
      obtain ⟨name, hname, hsome⟩ := h
      rw [eq_of_lookup hname, Except.ok.inj hsome]

end Scope

theorem Reference.encoded_ofWritten (name? : Option String) :
    (ofWritten name?).encoded = ofSelector (name?.getD globalVariable) := by
  cases name? with
  | some name => rfl
  | none => exact (ofSelector_eq_pattern.2 rfl).symm

theorem TimeTerm.references_elaborate {t : TimeTerm} {p : TimePoint} (h : t.elaborate s = .ok p) :
    p.references = t.references.map Reference.encoded := by
  induction t using TimeTerm.induction generalizing p with
  | literal text =>
      simp only [elaborate, bind_eq_ok, pure_eq_ok] at h
      obtain ⟨moment, -, rfl⟩ := h
      rfl
  | selector name? field =>
      simp only [elaborate, bind_eq_ok, pure_eq_ok] at h
      obtain ⟨name, hname, rfl⟩ := h
      rw [TimePoint.references_selector, references, List.map_singleton,
        Scope.encoded_ofWritten_of_target hname]
  | aggregate choice args ih =>
      simp only [elaborate, elaborateEach_eq, bind_eq_ok] at h
      obtain ⟨ps, hps, hp⟩ := h
      rw [Aggregate.references_of hp, references, referencesEach_eq, List.map_flatMap]
      exact flatMap_eq_of_mapM hps fun t ht p hp => ih t ht hp

/-- The interval refers to what is written, and so does either end with the conditions. -/
theorem IntervalTerm.references_elaborate {i : IntervalTerm} {c : Constrained Interval}
    (h : i.elaborate s = .ok c) :
    (∀ r, r ∈ c.references ↔ r ∈ i.references.map Reference.encoded) ∧ c.EndsAgree := by
  induction i generalizing c with
  | selector name? axis =>
      simp only [elaborate, bind_eq_ok, pure_eq_ok] at h
      obtain ⟨name, hname, rfl⟩ := h
      refine ⟨fun r => ?_, Constrained.endsAgree_ofElement name axis⟩
      rw [references, List.map_singleton, Scope.encoded_ofWritten_of_target hname,
        List.mem_singleton]
      exact List.mem_pair.trans or_self_iff
  | literal start stop =>
      simp only [elaborate, bind_eq_ok, pure_eq_ok] at h
      obtain ⟨p, hp, q, hq, rfl⟩ := h
      refine ⟨fun r => ?_, Constrained.endsAgree_literal p q⟩
      rw [Constrained.mem_references_literal, TimeTerm.references_elaborate hp,
        TimeTerm.references_elaborate hq, references, List.map_append, List.mem_append]
  | merge i j ihi ihj =>
      simp only [elaborate, bind_eq_ok, pure_eq_ok] at h
      obtain ⟨a, ha, b, hb, rfl⟩ := h
      refine ⟨fun r => ?_, Constrained.endsAgree_merge⟩
      rw [Constrained.mem_references_merge, (ihi ha).1, (ihj hb).1, references, List.map_append,
        List.mem_append]
  | join i j ihi ihj =>
      simp only [elaborate, bind_eq_ok, pure_eq_ok] at h
      obtain ⟨a, ha, b, hb, rfl⟩ := h
      refine ⟨fun r => ?_, Constrained.endsAgree_join⟩
      rw [Constrained.mem_references_join, (ihi ha).1, (ihj hb).1, references, List.map_append,
        List.mem_append]

theorem ArgumentTerm.references_elaborate {t : ArgumentTerm} {a : Argument}
    (h : t.elaborate s = .ok a) :
    (∀ r, r ∈ a.references ↔ r ∈ t.references.map Reference.encoded) ∧ a.EndsAgree := by
  cases t with
  | interval i =>
      simp only [elaborate, bind_eq_ok, pure_eq_ok] at h
      obtain ⟨c, hc, rfl⟩ := h
      exact IntervalTerm.references_elaborate hc
  | timestamp t =>
      simp only [elaborate, bind_eq_ok, pure_eq_ok] at h
      obtain ⟨p, hp, rfl⟩ := h
      refine ⟨fun r => ?_, trivial⟩
      rw [Argument.references, references, TimeTerm.references_elaborate hp]
  | length l =>
      simp only [elaborate, bind_eq_ok, pure_eq_ok] at h
      obtain ⟨length, -, rfl⟩ := h
      exact ⟨fun r => Iff.rfl, trivial⟩

theorem ArgumentTerm.references_elaborate_all {ts : List ArgumentTerm} {args : List Argument}
    (h : ts.mapM (elaborate s) = .ok args) :
    (∀ r, (∃ a ∈ args, r ∈ a.references) ↔
      r ∈ (ts.flatMap references).map Reference.encoded) ∧ ∀ a ∈ args, a.EndsAgree := by
  constructor
  · intro r
    rw [List.map_flatMap, List.mem_flatMap]
    exact exists_mem_mapM_iff h fun t _ a ha => (references_elaborate ha).1 r
  · intro a ha
    obtain ⟨t, -, ht⟩ := exists_of_mem_mapM h ha
    exact (references_elaborate ht).2

theorem OperandTerm.references_elaborate {t : OperandTerm} {o : Operand}
    (h : t.elaborate s = .ok o) : o.references = t.references.map Reference.encoded := by
  cases t with
  | value v =>
      obtain rfl := Except.ok.inj h
      rfl
  | element name | property name key =>
      simp only [elaborate, bind_eq_ok, pure_eq_ok] at h
      obtain ⟨name, hname, rfl⟩ := h
      obtain rfl := Scope.eq_of_lookup hname
      rfl
  | timestamp t =>
      simp only [elaborate, bind_eq_ok, pure_eq_ok] at h
      obtain ⟨p, hp, rfl⟩ := h
      exact TimeTerm.references_elaborate hp

theorem Filter.mem_references_elaborate {f : Filter} {p : Predicate}
    (h : f.elaborate s = .ok p) :
    r ∈ Predicate.references p ↔ r ∈ f.references.map Reference.encoded := by
  induction f generalizing p with
  | and f g ihf ihg | or f g ihf ihg | xor f g ihf ihg =>
      simp only [elaborate, bind_eq_ok, pure_eq_ok] at h
      obtain ⟨p, hp, q, hq, rfl⟩ := h
      rw [Predicate.references, Formula.atoms, List.flatMap_append, List.mem_append, references,
        List.map_append, List.mem_append, ← ihf hp, ← ihg hq]
      rfl
  | not f ih =>
      simp only [elaborate, bind_eq_ok, pure_eq_ok] at h
      obtain ⟨p, hp, rfl⟩ := h
      have hnot : Predicate.references (.not p) = Predicate.references p := rfl
      rw [hnot, ih hp, references]
  | comparison lhs op rhs =>
      simp only [elaborate, bind_eq_ok, pure_eq_ok] at h
      obtain ⟨l, hl, op, -, r, hr, rfl⟩ := h
      rw [references, List.map_append, ← OperandTerm.references_elaborate hl,
        ← OperandTerm.references_elaborate hr]
      simp [Predicate.references, Formula.atoms, Comparison.references]
  | intervalCall caller function args =>
      simp only [elaborate, bind_eq_ok] at h
      obtain ⟨relation, -, c, hc, as, has, hp⟩ := h
      obtain ⟨hcaller, hends⟩ := IntervalTerm.references_elaborate hc
      obtain ⟨hargs, hagree⟩ := ArgumentTerm.references_elaborate_all has
      rw [IntervalRelation.mem_references_apply hp hends hagree, hcaller, hargs, references,
        List.map_append, List.mem_append]
  | timestampCall caller function args =>
      simp only [elaborate, bind_eq_ok] at h
      obtain ⟨relation, -, c, hc, as, has, hp⟩ := h
      obtain ⟨hargs, hagree⟩ := ArgumentTerm.references_elaborate_all has
      rw [TimestampRelation.mem_references_apply hp hagree, TimeTerm.references_elaborate hc,
        hargs, references, List.map_append, List.mem_append]
  | asOf name? time =>
      simp only [elaborate, bind_eq_ok, pure_eq_ok] at h
      obtain ⟨name?', hname, q, hq, rfl⟩ := h
      obtain rfl := Scope.eq_of_mapM_lookup hname
      rw [Predicate.mem_references_asOf, references, List.map_cons, List.mem_cons,
        Reference.encoded_ofWritten, TimeTerm.references_elaborate hq]

/-! ## Names and references as they are written -/

theorem Reference.filterMap_ofWritten (name? : Option String) :
    [ofWritten name?].filterMap Reference.name? = name?.toList := by
  cases name? <;> rfl

theorem TimeTerm.names_eq (t : TimeTerm) : t.names = t.references.filterMap Reference.name? := by
  induction t using TimeTerm.induction with
  | literal text => rfl
  | selector name? field => exact (Reference.filterMap_ofWritten name?).symm
  | aggregate choice args ih =>
      rw [names, namesEach_eq, references, referencesEach_eq, List.filterMap_flatMap]
      exact List.flatMap_congr ih

theorem IntervalTerm.names_eq (i : IntervalTerm) :
    i.names = i.references.filterMap Reference.name? := by
  induction i with
  | selector name? axis => exact (Reference.filterMap_ofWritten name?).symm
  | literal start stop =>
      rw [names, references, List.filterMap_append, start.names_eq, stop.names_eq]
  | merge i j ihi ihj | join i j ihi ihj => rw [names, references, List.filterMap_append, ihi, ihj]

theorem ArgumentTerm.names_eq (t : ArgumentTerm) :
    t.names = t.references.filterMap Reference.name? := by
  cases t with
  | interval i => exact i.names_eq
  | timestamp t => exact t.names_eq
  | length l => rfl

theorem OperandTerm.names_eq (t : OperandTerm) :
    t.names = t.references.filterMap Reference.name? := by
  cases t with
  | timestamp t => exact t.names_eq
  | value _ | element _ | property _ _ => rfl

theorem Filter.names_eq (f : Filter) : f.names = f.references.filterMap Reference.name? := by
  induction f with
  | and f g ihf ihg | or f g ihf ihg | xor f g ihf ihg =>
      rw [names, references, List.filterMap_append, ihf, ihg]
  | not f ih => exact ih
  | comparison lhs op rhs =>
      rw [names, references, List.filterMap_append, lhs.names_eq, rhs.names_eq]
  | intervalCall caller function args | timestampCall caller function args =>
      rw [names, references, List.filterMap_append, List.filterMap_flatMap, caller.names_eq]
      exact congrArg _ (List.flatMap_congr fun arg _ => arg.names_eq)
  | asOf name? time =>
      rw [names, references, ← List.singleton_append, List.filterMap_append,
        Reference.filterMap_ofWritten, time.names_eq]

end TemporalPattern
