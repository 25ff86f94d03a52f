import TemporalPattern.Comparison.Basic

/-!
# Unfolding aggregates

A comparison with a latest or an earliest time is taken apart into comparisons between the
arguments: `MAX(p, q) > x` becomes `p > x OR q > x`. One step removes the outermost aggregate of one
operand; `Comparison.unfoldAggregates` goes on until no operand is an aggregate.
-/

namespace TemporalPattern

/-- Every element of a list with the others, in order. -/
def selections {α : Type} : List α → List (α × List α)
  | [] => []
  | a :: as => (a, as) :: (selections as).map fun (b, bs) => (b, a :: bs)

theorem perm_of_mem_selections {α : Type} {as bs : List α} {a : α}
    (h : (a, bs) ∈ selections as) : (a :: bs).Perm as := by
  induction as generalizing bs with
  | nil => simp [selections] at h
  | cons c cs ih =>
    simp only [selections, List.mem_cons, Prod.mk.injEq, List.mem_map, Prod.exists] at h
    rcases h with ⟨rfl, rfl⟩ | ⟨b, ds, hm, rfl, rfl⟩
    · exact .refl _
    · exact (List.Perm.swap c b ds).trans ((ih hm).cons c)

theorem exists_mem_selections {α : Type} {as : List α} {a : α} (h : a ∈ as) :
    ∃ bs, (a, bs) ∈ selections as := by
  induction h with
  | head as => exact ⟨as, List.mem_cons_self⟩
  | tail b _ ih =>
    obtain ⟨bs, hbs⟩ := ih
    exact ⟨b :: bs, List.mem_cons_of_mem _ (List.mem_map_of_mem hbs)⟩

/-- The comparison of a time point with an operand of any kind. -/
def TimePoint.compareWith (p : TimePoint) (op : Comparator) (operand : Operand) : Predicate :=
  .atom ⟨.time p, op, operand⟩

namespace Aggregate

/-- How the chosen argument compares with the others. -/
def dominates : Aggregate → Comparator
  | max => .gte
  | min => .lte

/-- Whether a comparison holds for the aggregate as soon as it holds for one argument. -/
def isExistential : Aggregate → Comparator → Bool
  | max, .gt | max, .gte | min, .lt | min, .lte => true
  | _, _ => false

/-- The comparison of an aggregate with an operand, as a formula over the arguments if there are
any. It is equal if some argument is equal and dominates the others; it differs if every argument
differs or is dominated by another. -/
def expand? (choice : Aggregate) (args : List TimePoint) (op : Comparator) (operand : Operand) :
    Option Predicate :=
  match op with
  | .eq => Formula.disjunction <| (selections args).map fun (p, others) =>
      (p.compareWith .eq operand).conjoin
        (others.map fun q => p.compareWith choice.dominates (.time q))
  | .neq => Formula.conjunction <| (selections args).map fun (p, others) =>
      (p.compareWith .neq operand).disjoin
        (others.map fun q => p.compareWith choice.dominates.inverse (.time q))
  | op =>
    if choice.isExistential op then Formula.disjunction (args.map (·.compareWith op operand))
    else Formula.conjunction (args.map (·.compareWith op operand))

def expand (choice : Aggregate) (args : List TimePoint) (op : Comparator) (operand : Operand) :
    Except Error Predicate :=
  match choice.expand? args op operand with
  | some formula => .ok formula
  | none => .error .emptyAggregate

end Aggregate

namespace TimePoint

mutual

/-- The number of aggregates that are reached through aggregates only. -/
def aggregateCount : TimePoint → Nat
  | aggregate _ args => aggregateCountEach args + 1
  | _ => 0

def aggregateCountEach : List TimePoint → Nat
  | [] => 0
  | p :: ps => p.aggregateCount + aggregateCountEach ps

end

theorem aggregateCount_le_of_mem {p : TimePoint} {ps : List TimePoint} (h : p ∈ ps) :
    p.aggregateCount ≤ aggregateCountEach ps := by
  induction h with
  | head => simp [aggregateCountEach]
  | tail q _ ih => simp only [aggregateCountEach]; omega

theorem aggregateCountEach_of_perm {ps qs : List TimePoint} (h : ps.Perm qs) :
    aggregateCountEach ps = aggregateCountEach qs := by
  induction h with
  | nil => rfl
  | cons p _ ih => simp only [aggregateCountEach, ih]
  | swap p q _ => simp only [aggregateCountEach]; omega
  | trans _ _ ih ih' => exact ih.trans ih'

/-- One step of unfolding a comparison whose left operand is a time point. A duration or a shifted
point has no unfolding. -/
def unfoldAgainst (p : TimePoint) (op : Comparator) (operand : Operand) : Except Error Predicate :=
  match p with
  | literal _ | selector _ _ | constant _ => .ok (.atom ⟨.time p, op, operand⟩)
  | aggregate choice args => choice.expand args op operand
  | duration _ _ | plus _ _ => .error (.unfoldNotSupported p.kindName)

end TimePoint

namespace Operand

def aggregateCount : Operand → Nat
  | time p => p.aggregateCount
  | _ => 0

end Operand

namespace Aggregate

variable {choice : Aggregate} {args : List TimePoint} {op : Comparator} {operand : Operand}
  {f : Predicate} {c : Comparison}

theorem expand_eq_ok :
    choice.expand args op operand = .ok f ↔ choice.expand? args op operand = some f := by
  unfold expand
  split <;> simp_all

/-- The comparisons of one argument: with the operand, and by `rival` with the other arguments. -/
def comparisonsOf (op : Comparator) (operand : Operand) (rival : Comparator)
    (s : TimePoint × List TimePoint) : List Comparison :=
  ⟨.time s.1, op, operand⟩ :: s.2.map fun q => ⟨.time s.1, rival, .time q⟩

/-- Arguments are compared with each other only for `eq` and `neq`. -/
theorem atoms_expand? (h : choice.expand? args op operand = some f) :
    (∃ rival, Formula.atoms f = (selections args).flatMap (comparisonsOf op operand rival)) ∨
      Formula.atoms f = args.map fun p => ⟨.time p, op, operand⟩ := by
  unfold expand? at h
  split at h
  case h_1 =>
    refine .inl ⟨choice.dominates, ?_⟩
    rw [Formula.atoms_disjunction h, List.flatMap_map]
    simp only [TimePoint.compareWith, Formula.atoms_conjoin, Formula.atoms, List.flatMap_map,
      List.singleton_append, ← List.map_eq_flatMap]
    rfl
  case h_2 =>
    refine .inl ⟨choice.dominates.inverse, ?_⟩
    rw [Formula.atoms_conjunction h, List.flatMap_map]
    simp only [TimePoint.compareWith, Formula.atoms_disjoin, Formula.atoms, List.flatMap_map,
      List.singleton_append, ← List.map_eq_flatMap]
    rfl
  case h_3 =>
    have hatoms : Formula.atoms f =
        (args.map (·.compareWith op operand)).flatMap Formula.atoms := by
      split at h
      · exact Formula.atoms_disjunction h
      · exact Formula.atoms_conjunction h
    refine .inr ?_
    rw [hatoms, List.flatMap_map, List.map_eq_flatMap]
    rfl

/-- An expansion compares arguments with the operand or with each other. -/
theorem mem_atoms_expand (h : choice.expand args op operand = .ok f) (hc : c ∈ f.atoms) :
    ∃ s ∈ selections args,
      c.lhs = .time s.1 ∧ (c.rhs = operand ∨ ∃ q ∈ s.2, c.rhs = .time q) := by
  rcases atoms_expand? (expand_eq_ok.1 h) with ⟨rival, hatoms⟩ | hatoms
  · rw [hatoms] at hc
    obtain ⟨s, hs, hc⟩ := List.mem_flatMap.1 hc
    rcases List.mem_cons.1 hc with rfl | hc
    · exact ⟨s, hs, rfl, .inl rfl⟩
    · obtain ⟨q, hq, rfl⟩ := List.mem_map.1 hc
      exact ⟨s, hs, rfl, .inr ⟨q, hq, rfl⟩⟩
  · rw [hatoms] at hc
    obtain ⟨p, hp, rfl⟩ := List.mem_map.1 hc
    obtain ⟨others, hs⟩ := exists_mem_selections hp
    exact ⟨(p, others), hs, rfl, .inl rfl⟩

/-- Expanding an aggregate leaves fewer aggregates in every comparison. -/
theorem aggregateCount_lt_of_expand (h : choice.expand args op operand = .ok f)
    (hc : c ∈ f.atoms) :
    c.lhs.aggregateCount + c.rhs.aggregateCount <
      (TimePoint.aggregate choice args).aggregateCount + operand.aggregateCount := by
  obtain ⟨s, hs, hl, hr⟩ := mem_atoms_expand h hc
  have hargs := TimePoint.aggregateCountEach_of_perm (perm_of_mem_selections hs)
  rw [TimePoint.aggregateCountEach] at hargs
  rw [TimePoint.aggregateCount, hl, Operand.aggregateCount]
  rcases hr with hr | ⟨q, hq, hr⟩
  · rw [hr]
    omega
  · have hle := TimePoint.aggregateCount_le_of_mem hq
    rw [hr, Operand.aggregateCount]
    omega

end Aggregate

namespace Comparison

/-- One step of unfolding, if an operand is an aggregate: at the left one, or else at the right one
with the operands switched. -/
def expand? (c : Comparison) : Option (Except Error Predicate) :=
  match c.lhs, c.rhs with
  | .time (.aggregate choice args), operand =>
    some (TimePoint.unfoldAgainst (.aggregate choice args) c.op operand)
  | operand, .time (.aggregate choice args) =>
    some (TimePoint.unfoldAgainst (.aggregate choice args) c.op.converse operand)
  | _, _ => none

theorem aggregateCount_lt_of_expand? {c d : Comparison} {f : Predicate}
    (h : c.expand? = some (.ok f)) (hd : d ∈ f.atoms) :
    d.lhs.aggregateCount + d.rhs.aggregateCount < c.lhs.aggregateCount + c.rhs.aggregateCount := by
  obtain ⟨lhs, op, rhs⟩ := c
  unfold expand? at h
  split at h <;> simp only [Option.some.injEq, reduceCtorEq] at h <;> dsimp only at *
  case h_1 choice args hl =>
    subst hl
    exact Aggregate.aggregateCount_lt_of_expand h hd
  case h_2 choice args hr _ =>
    subst hr
    rw [Nat.add_comm lhs.aggregateCount]
    exact Aggregate.aggregateCount_lt_of_expand h hd

/-- The comparison as a formula in which no operand is an aggregate. -/
def unfoldAggregates (c : Comparison) : Except Error Predicate :=
  match h : c.expand? with
  | none => .ok (.atom c)
  | some (.error e) => .error e
  | some (.ok f) => f.substitute fun d hd =>
    have := aggregateCount_lt_of_expand? h hd
    d.unfoldAggregates
termination_by c.lhs.aggregateCount + c.rhs.aggregateCount

end Comparison

namespace Predicate

/-- Unfolds every comparison of a predicate. -/
def unfoldAggregates (p : Predicate) : Except Error Predicate :=
  p.substitute fun c _ => c.unfoldAggregates

end Predicate
end TemporalPattern
