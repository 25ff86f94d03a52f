import TemporalPattern.Proofs.Formula
import TemporalPattern.Proofs.NormalForm

/-!
# Normal forms as formulas

A normal form is written out as the conjunction of its clauses, each the disjunction of its
literals, if there is anything in it and in every clause.  Converting that formula has nothing to
do: a disjunction of literals is a single clause, and such clauses are appended in order.
-/

namespace TemporalPattern

variable {α : Type}

/-! ## Conversion of nested connectives -/

namespace Formula

theorem toCnf_disjoin (p : Formula α) (ps : List (Formula α)) :
    (p.disjoin ps).toCnf = (ps.map toCnf).foldl Cnf.or p.toCnf := by
  induction ps generalizing p with
  | nil => rfl
  | cons q ps ih => exact ih (p.or q)

theorem toCnf_conjoin (p : Formula α) (ps : List (Formula α)) :
    (p.conjoin ps).toCnf = (ps.map toCnf).foldl Cnf.and p.toCnf := by
  induction ps generalizing p with
  | nil => rfl
  | cons q ps ih => exact ih (p.and q)

end Formula

theorem Literal.toCnf_toFormula (l : Literal α) : l.toFormula.toCnf = .ofLiteral l := by
  cases l <;> rfl

namespace Cnf

/-- One clause on either side leaves one clause. -/
theorem foldl_or_ofLiteral (ls ms : List (Literal α)) :
    (ms.map ofLiteral).foldl or ⟨[⟨ls⟩]⟩ = ⟨[⟨ls ++ ms⟩]⟩ := by
  induction ms generalizing ls with
  | nil => rw [List.map_nil, List.foldl_nil, List.append_nil]
  | cons m ms ih =>
      have hstep : (⟨[⟨ls⟩]⟩ : Cnf α).or (ofLiteral m) = ⟨[⟨ls ++ [m]⟩]⟩ := rfl
      rw [List.map_cons, List.foldl_cons, hstep, ih, List.append_assoc, List.singleton_append]

theorem foldl_and_singleton (cs ds : List (Clause α)) :
    (ds.map fun d => (⟨[d]⟩ : Cnf α)).foldl and ⟨cs⟩ = ⟨cs ++ ds⟩ := by
  induction ds generalizing cs with
  | nil => rw [List.map_nil, List.foldl_nil, List.append_nil]
  | cons d ds ih =>
      have hstep : (⟨cs⟩ : Cnf α).and ⟨[d]⟩ = ⟨cs ++ [d]⟩ := rfl
      rw [List.map_cons, List.foldl_cons, hstep, ih, List.append_assoc, List.singleton_append]

end Cnf

/-! ## Clauses and normal forms -/

section

variable {c : Clause α} {n : Cnf α} {p : Formula α}

theorem Clause.exists_toFormula?_iff : (∃ p, c.toFormula? = some p) ↔ c.literals ≠ [] := by
  rw [← Option.ne_none_iff_exists', ne_eq, Clause.toFormula?, Formula.disjunction_eq_none,
    List.map_eq_nil_iff]

theorem Clause.toCnf_of_toFormula? (h : c.toFormula? = some p) : p.toCnf = ⟨[c]⟩ := by
  obtain ⟨literals⟩ := c
  cases literals with
  | nil => simp [Clause.toFormula?, Formula.disjunction] at h
  | cons l ls =>
      obtain rfl : l.toFormula.disjoin (ls.map Literal.toFormula) = p := Option.some.inj h
      have hliterals : (ls.map Literal.toFormula).map Formula.toCnf = ls.map Cnf.ofLiteral := by
        rw [List.map_map]
        exact List.map_congr_left fun m _ => m.toCnf_toFormula
      rw [Formula.toCnf_disjoin, hliterals, Literal.toCnf_toFormula]
      exact Cnf.foldl_or_ofLiteral [l] ls

theorem Cnf.toFormula?_eq_some : n.toFormula? = some p ↔
    ∃ ps, n.clauses.mapM Clause.toFormula? = some ps ∧ Formula.conjunction ps = some p :=
  Option.bind_eq_some_iff

theorem Cnf.toCnf_of_toFormula? (h : n.toFormula? = some p) : p.toCnf = n := by
  obtain ⟨ps, hps, hp⟩ := Cnf.toFormula?_eq_some.1 h
  have hclauses : ps.map Formula.toCnf = n.clauses.map fun c => ⟨[c]⟩ :=
    map_eq_of_mapM_eq_some hps fun c _ q hq => Clause.toCnf_of_toFormula? hq
  obtain ⟨clauses⟩ := n
  cases clauses with
  | nil =>
      rw [List.map_eq_nil_iff.1 hclauses, Formula.conjunction] at hp
      simp at hp
  | cons c cs =>
      obtain ⟨q, qs, rfl, hq, hqs⟩ := List.map_eq_cons_iff.1 hclauses
      obtain rfl : q.conjoin qs = p := Option.some.inj hp
      rw [Formula.toCnf_conjoin, hqs, hq]
      exact Cnf.foldl_and_singleton [c] cs

/-- A formula needs a clause, and a literal in every clause. -/
theorem Cnf.exists_toFormula?_iff : (∃ p, n.toFormula? = some p) ↔ n.IsProper := by
  have hliterals : (∃ ps, n.clauses.mapM Clause.toFormula? = some ps) ↔
      ∀ c ∈ n.clauses, c.literals ≠ [] := by
    rw [exists_mapM_eq_some]
    exact forall₂_congr fun c _ => Clause.exists_toFormula?_iff
  have hclauses {ps : List (Formula α)} (hps : n.clauses.mapM Clause.toFormula? = some ps) :
      (∃ p, Formula.conjunction ps = some p) ↔ n.clauses ≠ [] := by
    have hmap := mapM_eq_some.1 hps
    rw [← Option.ne_none_iff_exists', ne_eq, Formula.conjunction_eq_none, not_iff_not,
      ← List.map_eq_nil_iff (f := some), ← hmap, List.map_eq_nil_iff]
  constructor
  · rintro ⟨p, h⟩
    obtain ⟨ps, hps, hp⟩ := Cnf.toFormula?_eq_some.1 h
    exact ⟨(hclauses hps).1 ⟨p, hp⟩, hliterals.1 ⟨ps, hps⟩⟩
  · intro hn
    obtain ⟨ps, hps⟩ := hliterals.2 hn.literals
    obtain ⟨p, hp⟩ := (hclauses hps).2 hn.clauses
    exact ⟨p, Cnf.toFormula?_eq_some.2 ⟨ps, hps, hp⟩⟩

end

/-- A normal form with a clause and without an empty one, and no other, has a formula of its own;
that formula is converted to the same clauses with the same literals in the same order. -/
theorem Cnf.own_formula_is_already_normal (n : Cnf α) :
    (∃ p, n.toFormula? = some p ∧ p.toCnf = n) ↔
      n.clauses ≠ [] ∧ ∀ c ∈ n.clauses, c.literals ≠ [] := by
  constructor
  · rintro ⟨p, h, -⟩
    have hn := Cnf.exists_toFormula?_iff.1 ⟨p, h⟩
    exact ⟨hn.clauses, hn.literals⟩
  · rintro ⟨hclauses, hliterals⟩
    obtain ⟨p, h⟩ := Cnf.exists_toFormula?_iff.2 ⟨hclauses, hliterals⟩
    exact ⟨p, h, Cnf.toCnf_of_toFormula? h⟩

end TemporalPattern
