import Mathlib.Data.List.Perm.Basic
import TemporalPattern.Logic.Rearranged
import TemporalPattern.Proofs.NormalForm

/-!
# The algebra of normal forms

Conjunction appends lists of clauses and disjunction pairs them, so both are associative and the
second one distributes over the first, on one side even in the order of the clauses.  The verdict on
a combination is the Kleene connective of the verdicts, and apart from that it depends only on which
clauses there are and which literals they have.
-/

namespace TemporalPattern

variable {α : Type}

/-! ## Clauses -/

namespace Clause

theorem append_assoc (c d e : Clause α) : (c.append d).append e = c.append (d.append e) :=
  congrArg Clause.mk (List.append_assoc _ _ _)

theorem append_empty (c : Clause α) : c.append ⟨[]⟩ = c :=
  congrArg Clause.mk (List.append_nil _)

end Clause

namespace Cnf

/-! ## Conjunction -/

protected theorem and_assoc (a b c : Cnf α) : (a.and b).and c = a.and (b.and c) :=
  congrArg Cnf.mk (List.append_assoc _ _ _)

theorem and_top (a : Cnf α) : a.and top = a :=
  congrArg Cnf.mk (List.append_nil _)

/-! ## Disjunction -/

protected theorem or_assoc (a b c : Cnf α) : (a.or b).or c = a.or (b.or c) := by
  -- on both sides the clause of `a` changes last and the clause of `c` first
  have hclauses (x : Clause α) :
      (b.clauses.map x.append).flatMap (fun e => c.clauses.map e.append) =
        (b.clauses.flatMap fun y => c.clauses.map y.append).map x.append := by
    rw [List.flatMap_map, List.map_flatMap]
    congr 1
    funext y
    rw [List.map_map]
    apply List.map_congr_left
    intro z _
    exact Clause.append_assoc x y z
  simp only [Cnf.or, List.flatMap_assoc, hclauses]

theorem bottom_or (a : Cnf α) : bottom.or a = a := by
  have hclauses : a.clauses.map (Clause.append ⟨[]⟩) = a.clauses := List.map_id _
  rw [Cnf.or, bottom, List.flatMap_singleton, hclauses]

theorem or_bottom (a : Cnf α) : a.or bottom = a := by
  have hclauses : (a.clauses.flatMap fun c => [c.append ⟨[]⟩]) = a.clauses := by
    simp only [Clause.append_empty, List.flatMap_singleton']
  exact congrArg Cnf.mk hclauses

theorem or_top (a : Cnf α) : a.or top = top := by
  simp [Cnf.or, top]

/-- The left side runs slowest, so the clauses of a conjunction on the left stay apart. -/
theorem and_or (a b c : Cnf α) : (a.and b).or c = (a.or c).and (b.or c) :=
  congrArg Cnf.mk (List.flatMap_append)

/-- A conjunction on the right is gone through once for every clause on the left. -/
theorem or_and_perm (a b c : Cnf α) :
    (c.or (a.and b)).clauses.Perm ((c.or a).and (c.or b)).clauses := by
  simp only [Cnf.or, Cnf.and, List.map_append]
  exact (List.flatMap_append_perm _ _ _).symm

theorem size_or (a b : Cnf α) : (a.or b).size = a.size * b.size := by
  simp [Cnf.or, size, List.length_flatMap]

/-! ## Rearranging -/

variable {verdict : α → Verdict} {a b : Cnf α}

theorem evaluate_of_rearranges (h : Rearranges a b) : a.evaluate verdict = b.evaluate verdict := by
  cases h with
  | clauses h => exact Verdict.all_perm (h.map _)
  | repeatClause h => exact (Verdict.all_cons_of_mem (List.mem_map_of_mem h)).symm
  | @literals ls ms h cs =>
      have hclause : Clause.evaluate verdict ⟨ls⟩ = Clause.evaluate verdict ⟨ms⟩ :=
        Verdict.any_perm (h.map _)
      rw [evaluate, List.map_cons, hclause]
      rfl
  | @repeatLiteral ls l h cs =>
      have hclause : Clause.evaluate verdict ⟨l :: ls⟩ = Clause.evaluate verdict ⟨ls⟩ :=
        Verdict.any_cons_of_mem (List.mem_map_of_mem h)
      rw [evaluate, List.map_cons, ← hclause]
      rfl

theorem evaluate_of_rearranged (h : Rearranged a b) : a.evaluate verdict = b.evaluate verdict := by
  induction h with
  | rel a b h => exact evaluate_of_rearranges h
  | refl a => rfl
  | symm a b _ ih => exact ih.symm
  | trans a b c _ _ ih ih' => exact ih.trans ih'

/-! ## The laws -/

/-- How conjunction, disjunction and verdicts of normal forms go together. Where no order is
mentioned, lists of clauses and literals are the same. -/
structure Laws (verdict : α → Verdict) : Prop where
  and_assoc (a b c : Cnf α) : (a.and b).and c = a.and (b.and c)
  top_and (a : Cnf α) : top.and a = a
  and_top (a : Cnf α) : a.and top = a
  or_assoc (a b c : Cnf α) : (a.or b).or c = a.or (b.or c)
  bottom_or (a : Cnf α) : bottom.or a = a
  or_bottom (a : Cnf α) : a.or bottom = a
  top_or (a : Cnf α) : top.or a = top
  or_top (a : Cnf α) : a.or top = top
  and_or (a b c : Cnf α) : (a.and b).or c = (a.or c).and (b.or c)
  /-- On this side the clauses are the same up to their order. -/
  or_and (a b c : Cnf α) : (c.or (a.and b)).clauses.Perm ((c.or a).and (c.or b)).clauses
  size_or (a b : Cnf α) : (a.or b).size = a.size * b.size
  evaluate_and (a b : Cnf α) :
    (a.and b).evaluate verdict = .and (a.evaluate verdict) (b.evaluate verdict)
  evaluate_or (a b : Cnf α) :
    (a.or b).evaluate verdict = .or (a.evaluate verdict) (b.evaluate verdict)
  evaluate_rearranged (a b : Cnf α) (h : Rearranged a b) :
    a.evaluate verdict = b.evaluate verdict

/-- The laws hold of all normal forms, without clauses or with empty ones as well, and of all ways
to judge atoms, the static verdicts on comparisons among them. -/
theorem combinators_obey_laws (verdict : α → Verdict) : Laws verdict where
  and_assoc := Cnf.and_assoc
  top_and _ := rfl
  and_top := and_top
  or_assoc := Cnf.or_assoc
  bottom_or := bottom_or
  or_bottom := or_bottom
  top_or _ := rfl
  or_top := or_top
  and_or := and_or
  or_and := or_and_perm
  size_or := size_or
  evaluate_and := evaluate_and verdict
  evaluate_or := evaluate_or verdict
  evaluate_rearranged _ _ := evaluate_of_rearranged

/-- Literals change places, one of them is repeated, and so is a clause.  What is undecided stays
so. -/
theorem combinators_obey_laws_of_repeated_literal :
    let c : Comparison := .ofTimes (.literal 3) .lt (.literal 5)
    let d : Comparison := ⟨.element "a", .eq, .element "b"⟩
    let a : NormalForm := ⟨[⟨[.negative c, .positive d]⟩, ⟨[.positive c]⟩]⟩
    let b : NormalForm :=
      ⟨[⟨[.positive c]⟩, ⟨[.positive d, .positive d, .negative c]⟩, ⟨[.positive c]⟩]⟩
    Rearranged a b ∧ NormalForm.evaluate b = none ∧ NormalForm.evaluate a = none ∧
      (a.or b).size = 6 := by
  intro c d a b
  have hlaws : Laws Comparison.evaluate := combinators_obey_laws Comparison.evaluate
  have hswap : [Literal.negative c, .positive d].Perm [.positive d, .negative c] := .swap _ _ _
  have hab : Rearranged a b := by
    apply Relation.EqvGen.trans _ _ _ (.rel _ _ (.literals hswap [⟨[.positive c]⟩]))
    apply Relation.EqvGen.trans _ _ _ (.rel _ _ (.repeatLiteral (l := .positive d) (by simp) _))
    exact .rel _ _ (.repeatClause (by simp))
  have hb : NormalForm.evaluate b = none := by decide
  exact ⟨hab, hb, (hlaws.evaluate_rearranged a b hab).trans hb, hlaws.size_or a b⟩

end Cnf
end TemporalPattern
