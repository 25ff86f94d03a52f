import TemporalPattern.Proofs.Expansion

/-!
# Unfolding keeps the meaning

Unfolding a comparison goes on until no operand is an aggregate.  Whatever holds of operands and is
passed on to the arguments of aggregates holds of the operands of the result, and the meaning of a
comparison is that of its expansion.  It fails on aggregates without arguments and on nothing else.
-/

namespace TemporalPattern

universe u

/-! ## One step at a comparison -/

namespace Comparison

/-- A comparison is expanded at its left operand, or else with its operands switched. -/
theorem expand?_eq_some {c : Comparison} {r : Except Error Predicate} (h : c.expand? = some r) :
    ∃ choice args,
      (c.lhs = .time (.aggregate choice args) ∧ r = choice.expand args c.op c.rhs) ∨
      (c.rhs = .time (.aggregate choice args) ∧ r = choice.expand args c.op.converse c.lhs) := by
  obtain ⟨lhs, op, rhs⟩ := c
  unfold expand? at h
  split at h <;> simp only [Option.some.injEq, reduceCtorEq] at h <;> dsimp only at *
  case h_1 choice args hl => exact ⟨choice, args, .inl ⟨hl, h.symm⟩⟩
  case h_2 choice args hr _ => exact ⟨choice, args, .inr ⟨hr, h.symm⟩⟩

theorem expand?_eq_none {c : Comparison} :
    c.expand? = none ↔ c.lhs.isAggregate = false ∧ c.rhs.isAggregate = false := by
  obtain ⟨lhs, op, rhs⟩ := c
  unfold expand?
  split <;> dsimp only at *
  case h_1 choice args hl => simp [hl, Operand.isAggregate, TimePoint.isAggregate]
  case h_2 choice args hr _ => simp [hr, Operand.isAggregate, TimePoint.isAggregate]
  case h_3 hl hr =>
    have hno {operand : Operand}
        (h : ∀ choice args, operand = .time (.aggregate choice args) → False) :
        operand.isAggregate = false := by
      cases operand with
      | time p =>
          cases p with
          | aggregate choice args => exact (h choice args rfl).elim
          | _ => rfl
      | _ => rfl
    exact iff_of_true rfl ⟨hno hl, hno hr⟩

theorem unfoldAggregates_of_none {c : Comparison} (h : c.expand? = none) :
    c.unfoldAggregates = .ok (.atom c) := by
  rw [unfoldAggregates]
  split <;> simp_all

theorem unfoldAggregates_of_error {c : Comparison} {e : Error}
    (h : c.expand? = some (.error e)) : c.unfoldAggregates = .error e := by
  rw [unfoldAggregates]
  split <;> simp_all

theorem unfoldAggregates_of_ok {c : Comparison} {f : Predicate}
    (h : c.expand? = some (.ok f)) : c.unfoldAggregates = Predicate.unfoldAggregates f := by
  rw [unfoldAggregates]
  split
  case h_1 hnone => simp [hnone] at h
  case h_2 e herror => simp [herror] at h
  case h_3 g hok =>
    rw [hok, Option.some.injEq, Except.ok.injEq] at h
    subst h
    rfl

/-- To show something of every comparison and its unfolding, show it of those that stay as they are
and carry it over from the comparisons of an expansion. -/
theorem unfolding_induction
    {motive : (c : Comparison) → (q : Predicate) → c.unfoldAggregates = .ok q → Prop}
    (atom : ∀ c (hnone : c.expand? = none), motive c (.atom c) (unfoldAggregates_of_none hnone))
    (step : ∀ c f q (hf : c.expand? = some (.ok f)) (hq : Predicate.unfoldAggregates f = .ok q),
      (∀ d ∈ f.atoms, ∀ r (hr : d.unfoldAggregates = .ok r), motive d r hr) →
        motive c q ((unfoldAggregates_of_ok hf).trans hq))
    {c : Comparison} {q : Predicate} (h : c.unfoldAggregates = .ok q) : motive c q h := by
  induction c using unfoldAggregates.induct generalizing q with
  | case1 c hnone =>
      obtain rfl := Except.ok.inj ((unfoldAggregates_of_none hnone).symm.trans h)
      exact atom c hnone
  | case2 c e herror => simp [unfoldAggregates_of_error herror] at h
  | case3 c f hf ih =>
      have hq := (unfoldAggregates_of_ok hf).symm.trans h
      exact step c f q hf hq fun d hd r hr => ih d hd hr

/-! ## Operands through an unfolding -/

/-- A property of operands that aggregates pass on to their arguments. -/
def PassedOn (P : Operand → Prop) : Prop :=
  ∀ choice args, P (.time (.aggregate choice args)) → ∀ p ∈ args, P (.time p)

/-- A property of operands that an aggregate with arguments has only from one of them. -/
def ComesFrom (P : Operand → Prop) : Prop :=
  ∀ choice args, args ≠ [] → P (.time (.aggregate choice args)) → ∃ p ∈ args, P (.time p)

/-- A property of operands that an aggregate with arguments has exactly if one of them has it. -/
def Distributes (P : Operand → Prop) : Prop :=
  ∀ choice args, args ≠ [] → (P (.time (.aggregate choice args)) ↔ ∃ p ∈ args, P (.time p))

variable {P : Operand → Prop} {c : Comparison}

theorem operands_of_expand? {f : Predicate} (hP : PassedOn P) (h : c.expand? = some (.ok f))
    (hl : P c.lhs) (hr : P c.rhs) : ∀ d ∈ f.atoms, P d.lhs ∧ P d.rhs := by
  have hstep {choice args op operand} (h : choice.expand args op operand = .ok f)
      (hagg : P (.time (.aggregate choice args))) (hoperand : P operand) :
      ∀ d ∈ f.atoms, P d.lhs ∧ P d.rhs := by
    intro d hd
    obtain ⟨s, hs, hdl, hdr⟩ := Aggregate.mem_atoms_expand h hd
    have hargs := mem_of_mem_selections hs
    refine ⟨hdl ▸ hP _ _ hagg _ hargs.1, ?_⟩
    rcases hdr with hdr | ⟨q, hq, hdr⟩
    · exact hdr ▸ hoperand
    · exact hdr ▸ hP _ _ hagg _ (hargs.2 q hq)
  obtain ⟨choice, args, ⟨hc, hok⟩ | ⟨hc, hok⟩⟩ := expand?_eq_some h
  · exact hstep hok.symm (hc ▸ hl) hr
  · exact hstep hok.symm (hc ▸ hr) hl

theorem exists_operand_of_expand? {f : Predicate} (hP : ComesFrom P)
    (h : c.expand? = some (.ok f)) (hc : P c.lhs ∨ P c.rhs) :
    ∃ d ∈ f.atoms, P d.lhs ∨ P d.rhs := by
  have hstep {choice args op operand} (h : choice.expand args op operand = .ok f)
      (hc : P (.time (.aggregate choice args)) ∨ P operand) :
      ∃ d ∈ f.atoms, P d.lhs ∨ P d.rhs := by
    have hargs := Aggregate.ne_nil_of_expand h
    rcases hc with hagg | hoperand
    · obtain ⟨p, hp, hPp⟩ := hP _ _ hargs hagg
      obtain ⟨d, hd, hdl, -⟩ := Aggregate.exists_mem_atoms_expand h hp
      exact ⟨d, hd, .inl (hdl ▸ hPp)⟩
    · obtain ⟨p, hp⟩ := List.exists_mem_of_ne_nil args hargs
      obtain ⟨d, hd, -, hdr⟩ := Aggregate.exists_mem_atoms_expand h hp
      exact ⟨d, hd, .inr (hdr ▸ hoperand)⟩
  obtain ⟨choice, args, ⟨hagg, hok⟩ | ⟨hagg, hok⟩⟩ := expand?_eq_some h
  · exact hstep hok.symm (hagg ▸ hc)
  · exact hstep hok.symm (hagg ▸ hc.symm)

theorem operands_of_unfoldAggregates {q : Predicate} (hP : PassedOn P)
    (h : c.unfoldAggregates = .ok q) (hl : P c.lhs) (hr : P c.rhs) :
    ∀ d ∈ q.atoms, P d.lhs ∧ P d.rhs := by
  induction h using unfolding_induction with
  | atom c _ =>
      intro d hd
      obtain rfl := List.mem_singleton.1 hd
      exact ⟨hl, hr⟩
  | step c f q hf hq ih =>
      intro d hd
      obtain ⟨b, hb, r, hr', hdr⟩ := Formula.exists_of_mem_atoms_substitute hq hd
      have hoperands := operands_of_expand? hP hf hl hr b hb
      exact ih b hb r hr' hoperands.1 hoperands.2 d hdr

theorem exists_operand_of_unfoldAggregates {q : Predicate} (hP : ComesFrom P)
    (h : c.unfoldAggregates = .ok q) (hc : P c.lhs ∨ P c.rhs) :
    ∃ d ∈ q.atoms, P d.lhs ∨ P d.rhs := by
  induction h using unfolding_induction with
  | atom c _ => exact ⟨c, List.mem_singleton_self c, hc⟩
  | step c f q hf hq ih =>
      obtain ⟨b, hb, hPb⟩ := exists_operand_of_expand? hP hf hc
      obtain ⟨r, hr, hsub⟩ := Formula.atoms_subset_of_substitute hq hb
      obtain ⟨d, hd, hPd⟩ := ih b hb r hr hPb
      exact ⟨d, hsub hd, hPd⟩

theorem exists_operand_unfoldAggregates_iff {q : Predicate} (hP : Distributes P)
    (h : c.unfoldAggregates = .ok q) :
    (∃ d ∈ q.atoms, P d.lhs ∨ P d.rhs) ↔ P c.lhs ∨ P c.rhs := by
  constructor
  · rintro ⟨d, hd, hPd⟩
    have hpassed : PassedOn fun operand => P operand → P c.lhs ∨ P c.rhs := by
      intro choice args hagg p hp hPp
      exact hagg ((hP choice args (List.ne_nil_of_mem hp)).2 ⟨p, hp, hPp⟩)
    obtain ⟨hl, hr⟩ := operands_of_unfoldAggregates hpassed h .inl .inr d hd
    exact hPd.elim hl hr
  · intro hc
    have hcomes : ComesFrom P := fun choice args hargs => (hP choice args hargs).1
    exact exists_operand_of_unfoldAggregates hcomes h hc

theorem atomic_of_unfoldAggregates {q : Predicate} (h : c.unfoldAggregates = .ok q) :
    ∀ d ∈ q.atoms, d.lhs.isAggregate = false ∧ d.rhs.isAggregate = false := by
  induction h using unfolding_induction with
  | atom c hnone =>
      intro d hd
      obtain rfl := List.mem_singleton.1 hd
      exact expand?_eq_none.1 hnone
  | step c f q hf hq ih =>
      intro d hd
      obtain ⟨b, hb, r, hr, hdr⟩ := Formula.exists_of_mem_atoms_substitute hq hd
      exact ih b hb r hr d hdr

/-! ## Meaning and failure -/

theorem holds_of_expand? {D : Type u} [LinearOrder D] {f : Predicate}
    (h : c.expand? = some (.ok f)) (v : Valuation D) : f.Holds v.Satisfies ↔ v.Satisfies c := by
  obtain ⟨choice, args, ⟨hagg, hok⟩ | ⟨hagg, hok⟩⟩ := expand?_eq_some h
  · rw [Aggregate.holds_expand hok.symm, ← hagg, Valuation.Satisfies]
  · rw [Aggregate.holds_expand hok.symm, ← hagg, Comparator.relates_converse, Valuation.Satisfies]

theorem holds_unfoldAggregates {D : Type u} [LinearOrder D] {q : Predicate}
    (h : c.unfoldAggregates = .ok q) (v : Valuation D) :
    q.Holds v.Satisfies ↔ v.Satisfies c := by
  induction h using unfolding_induction with
  | atom c _ => exact Iff.rfl
  | step c f q hf hq ih =>
      rw [← holds_of_expand? hf v]
      exact Formula.holds_substitute hq fun d hd r hr => ih d hd r hr

theorem unfoldAggregates_eq_error {e : Error} (h : c.unfoldAggregates = .error e) :
    c.ReachesEmpty ∧ e = .emptyAggregate := by
  induction c using unfoldAggregates.induct with
  | case1 c hnone => simp [unfoldAggregates_of_none hnone] at h
  | case2 c e' herror =>
      rw [unfoldAggregates_of_error herror, Except.error.injEq] at h
      subst h
      obtain ⟨choice, args, ⟨hagg, hexpand⟩ | ⟨hagg, hexpand⟩⟩ := expand?_eq_some herror
      · obtain ⟨hargs, he⟩ := Aggregate.expand_eq_error.1 hexpand.symm
        refine ⟨.inl ?_, he⟩
        rw [hagg]
        exact Operand.reachesEmpty_aggregate.2 (.inl hargs)
      · obtain ⟨hargs, he⟩ := Aggregate.expand_eq_error.1 hexpand.symm
        refine ⟨.inr ?_, he⟩
        rw [hagg]
        exact Operand.reachesEmpty_aggregate.2 (.inl hargs)
  | case3 c f hok ih =>
      rw [unfoldAggregates_of_ok hok] at h
      obtain ⟨d, hd, herror⟩ := Formula.exists_of_substitute_eq_error h
      obtain ⟨hreach, he⟩ := ih d hd herror
      refine ⟨?_, he⟩
      by_contra hc
      obtain ⟨hl, hr⟩ := not_or.1 hc
      have hpassed : PassedOn fun operand => ¬ operand.ReachesEmpty := by
        intro choice args hno p hp hreach
        exact hno (Operand.reachesEmpty_aggregate.2 (.inr ⟨p, hp, hreach⟩))
      have hoperands := operands_of_expand? hpassed hok hl hr d hd
      rcases hreach with hreach | hreach
      · exact hoperands.1 hreach
      · exact hoperands.2 hreach

/-- An aggregate without arguments that is reached leaves an operand that cannot be expanded. -/
theorem not_reachesEmpty_of_unfoldAggregates {q : Predicate} (h : c.unfoldAggregates = .ok q) :
    ¬ c.ReachesEmpty := by
  intro hreach
  have hcomes : ComesFrom Operand.ReachesEmpty := by
    intro choice args hargs hempty
    exact (Operand.reachesEmpty_aggregate.1 hempty).resolve_left hargs
  obtain ⟨d, hd, hempty⟩ := exists_operand_of_unfoldAggregates hcomes h hreach
  obtain ⟨hl, hr⟩ := atomic_of_unfoldAggregates h d hd
  rcases hempty with hempty | hempty
  · exact Operand.not_reachesEmpty hl hempty
  · exact Operand.not_reachesEmpty hr hempty

/-- The pattern variables of a comparison stay. -/
theorem mem_mentions_unfoldAggregates {q : Predicate} (h : c.unfoldAggregates = .ok q)
    {name : String} : (∃ d ∈ q.atoms, name ∈ d.mentions) ↔ name ∈ c.mentions := by
  have hmentions : Distributes fun operand => name ∈ operand.mentions :=
    fun _ _ _ => Operand.mem_mentions_aggregate
  simp only [mentions, List.mem_append]
  exact exists_operand_unfoldAggregates_iff hmentions h

end Comparison

/-! ## Predicates -/

namespace Predicate

theorem mem_variableNames {p : Predicate} {name : String} :
    name ∈ variableNames p ↔ ∃ c ∈ p.atoms, name ∈ c.mentions := by
  rw [variableNames, List.mem_eraseDups, List.mem_flatMap]

theorem unfoldAggregates_eq_error {p : Predicate} {e : Error}
    (h : unfoldAggregates p = .error e) : ReachesEmpty p ∧ e = .emptyAggregate := by
  obtain ⟨c, hc, herror⟩ := Formula.exists_of_substitute_eq_error h
  obtain ⟨hreach, he⟩ := Comparison.unfoldAggregates_eq_error herror
  exact ⟨⟨c, hc, hreach⟩, he⟩

theorem not_reachesEmpty_of_unfoldAggregates {p q : Predicate}
    (h : unfoldAggregates p = .ok q) : ¬ ReachesEmpty p := by
  rintro ⟨c, hc, hreach⟩
  obtain ⟨r, hr, -⟩ := Formula.atoms_subset_of_substitute h hc
  exact Comparison.not_reachesEmpty_of_unfoldAggregates hr hreach

theorem holds_unfoldAggregates {D : Type u} [LinearOrder D] {p q : Predicate}
    (h : unfoldAggregates p = .ok q) (v : Valuation D) :
    q.Holds v.Satisfies ↔ p.Holds v.Satisfies :=
  Formula.holds_substitute h fun _ _ _ hr => Comparison.holds_unfoldAggregates hr v

theorem isUnfolding_unfoldAggregates {p q : Predicate} (h : unfoldAggregates p = .ok q) :
    IsUnfolding.{u} p q where
  atomic := by
    intro d hd
    obtain ⟨c, hc, r, hr, hdr⟩ := Formula.exists_of_mem_atoms_substitute h hd
    exact Comparison.atomic_of_unfoldAggregates hr d hdr
  sameNames := by
    intro name
    rw [mem_variableNames, mem_variableNames]
    exact Formula.exists_mem_atoms_substitute_iff h fun _ _ _ hr =>
      Comparison.mem_mentions_unfoldAggregates hr
  sameMeaning := holds_unfoldAggregates h

theorem unfoldAggregates_of_reachesEmpty {p : Predicate} (h : ReachesEmpty p) :
    unfoldAggregates p = .error .emptyAggregate := by
  cases hp : unfoldAggregates p with
  | ok q => exact absurd h (not_reachesEmpty_of_unfoldAggregates hp)
  | error e => rw [(unfoldAggregates_eq_error hp).2]

theorem unfoldAggregates_of_not_reachesEmpty {p : Predicate} (h : ¬ ReachesEmpty p) :
    ∃ q, unfoldAggregates p = .ok q ∧ IsUnfolding.{u} p q := by
  cases hp : unfoldAggregates p with
  | ok q => exact ⟨q, rfl, isUnfolding_unfoldAggregates hp⟩
  | error e => exact absurd (unfoldAggregates_eq_error hp).1 h

/-- Unfolding fails exactly if an aggregate without arguments is reached through aggregates only,
and always for that reason.  Otherwise it says the same of the same variables without comparing
aggregates; lengths and shifted points are left as they are, with whatever aggregates they hold. -/
theorem unfolding_is_total_and_exact :
    (∀ c : Comparison,
      (c.ReachesEmpty → c.unfoldAggregates = .error .emptyAggregate) ∧
      (¬ c.ReachesEmpty → ∃ q, c.unfoldAggregates = .ok q ∧ IsUnfolding.{u} (.atom c) q)) ∧
    ∀ p : Predicate,
      (ReachesEmpty p → unfoldAggregates p = .error .emptyAggregate) ∧
      (¬ ReachesEmpty p → ∃ q, unfoldAggregates p = .ok q ∧ IsUnfolding.{u} p q) := by
  refine ⟨?_, fun p => ⟨unfoldAggregates_of_reachesEmpty, unfoldAggregates_of_not_reachesEmpty⟩⟩
  intro c
  have hatom : ReachesEmpty (.atom c) ↔ c.ReachesEmpty := by
    simp [ReachesEmpty, Formula.atoms]
  rw [← hatom]
  exact ⟨fun h => unfoldAggregates_of_reachesEmpty h,
    fun h => unfoldAggregates_of_not_reachesEmpty h⟩

/-- A minimum over a maximum can be unfolded; a minimum over a maximum of nothing cannot. -/
theorem unfolding_of_nested_aggregates :
    (¬ (Comparison.mk (.time (.aggregate .min
        [.selector "a" Axis.valid.start,
          .aggregate .max [.selector "b" Axis.valid.start, .literal 7]]))
        .neq (.property "e" "since")).ReachesEmpty ∧
      ∃ q, (Comparison.mk (.time (.aggregate .min
        [.selector "a" Axis.valid.start,
          .aggregate .max [.selector "b" Axis.valid.start, .literal 7]]))
        .neq (.property "e" "since")).unfoldAggregates = .ok q ∧
      IsUnfolding.{0} (.atom (Comparison.mk (.time (.aggregate .min
        [.selector "a" Axis.valid.start,
          .aggregate .max [.selector "b" Axis.valid.start, .literal 7]]))
        .neq (.property "e" "since"))) q) ∧
    ReachesEmpty (.not (.atom (.ofTimes (.literal 1) .lt
      (.aggregate .min [.literal 2, .aggregate .max []])))) ∧
    unfoldAggregates (.not (.atom (.ofTimes (.literal 1) .lt
      (.aggregate .min [.literal 2, .aggregate .max []])))) = .error .emptyAggregate := by
  have hno : ¬ (Comparison.mk (.time (.aggregate .min
      [.selector "a" Axis.valid.start,
        .aggregate .max [.selector "b" Axis.valid.start, .literal 7]]))
      .neq (.property "e" "since")).ReachesEmpty := by
    have hselector {name field} : ¬ (Operand.time (.selector name field)).ReachesEmpty :=
      Operand.not_reachesEmpty rfl
    have hliteral {time} : ¬ (Operand.time (.literal time)).ReachesEmpty :=
      Operand.not_reachesEmpty rfl
    have hproperty {name key} : ¬ (Operand.property name key).ReachesEmpty :=
      Operand.not_reachesEmpty rfl
    simp [Comparison.ReachesEmpty, Operand.reachesEmpty_aggregate, hselector, hliteral, hproperty]
  have hreach : ReachesEmpty (.not (.atom (.ofTimes (.literal 1) .lt
      (.aggregate .min [.literal 2, .aggregate .max []])))) := by
    refine ⟨_, List.mem_singleton_self _, .inr ?_⟩
    exact .through (List.mem_cons_of_mem _ List.mem_cons_self) (.empty .max)
  exact ⟨⟨hno, (unfolding_is_total_and_exact.1 _).2 hno⟩, hreach,
    (unfolding_is_total_and_exact.{0}.2 _).1 hreach⟩

end Predicate
end TemporalPattern
