import TemporalPattern.Predicate
import TemporalPattern.Proofs.Kleene

/-!
# The normal form decides what the formula decides

A formula and its conjunctive normal form have the same verdict, whatever the verdicts on the atoms
are.  An exclusive or puts its operands into the normal form twice, once negated, and an undecided
atom stays undecided in both places; truth under given data is the case without undecided atoms.
-/

namespace TemporalPattern

variable {α : Type}

/-! ## Verdicts on the combinators -/

theorem Clause.evaluate_append (verdict : α → Verdict) (c d : Clause α) :
    (c.append d).evaluate verdict = .or (c.evaluate verdict) (d.evaluate verdict) := by
  rw [Clause.evaluate, Clause.append, List.map_append, Verdict.any_append]
  rfl

namespace Cnf

theorem evaluate_ofLiteral (verdict : α → Verdict) (l : Literal α) :
    (ofLiteral l).evaluate verdict = l.evaluate verdict := by
  simp [ofLiteral, evaluate, Clause.evaluate]

theorem evaluate_and (verdict : α → Verdict) (m n : Cnf α) :
    (m.and n).evaluate verdict = .and (m.evaluate verdict) (n.evaluate verdict) := by
  rw [evaluate, Cnf.and, List.map_append, Verdict.all_append]
  rfl

/-- A clause in front of every clause of a normal form. -/
private theorem all_evaluate_append (verdict : α → Verdict) (c : Clause α)
    (ds : List (Clause α)) :
    Verdict.all ((ds.map c.append).map (·.evaluate verdict)) =
      .or (c.evaluate verdict) (.all (ds.map (·.evaluate verdict))) := by
  rw [Verdict.or_all, List.map_map, List.map_map]
  congr 1
  apply List.map_congr_left
  intro d _
  exact Clause.evaluate_append verdict c d

theorem evaluate_or (verdict : α → Verdict) (m n : Cnf α) :
    (m.or n).evaluate verdict = .or (m.evaluate verdict) (n.evaluate verdict) := by
  obtain ⟨cs⟩ := m
  induction cs with
  | nil => exact (Verdict.true_or _).symm
  | cons c cs ih =>
      have hsplit : (Cnf.mk (c :: cs)).or n =
          Cnf.and ⟨n.clauses.map c.append⟩ (Cnf.or ⟨cs⟩ n) := by
        simp [Cnf.or, Cnf.and]
      have hhead : Cnf.evaluate verdict ⟨n.clauses.map c.append⟩ =
          .or (c.evaluate verdict) (n.evaluate verdict) :=
        all_evaluate_append verdict c n.clauses
      have hcons : Cnf.evaluate verdict ⟨c :: cs⟩ =
          .and (c.evaluate verdict) (Cnf.evaluate verdict ⟨cs⟩) := rfl
      rw [hsplit, evaluate_and, hhead, ih, hcons, Verdict.and_or]

end Cnf

/-! ## The conversion -/

namespace Formula

/-- Both polarities at once: a negation exchanges them, and an exclusive or needs both. -/
theorem evaluate_normalForm (verdict : α → Verdict) (p : Formula α) :
    (p.normalForm true).evaluate verdict = p.evaluate verdict ∧
      (p.normalForm false).evaluate verdict = .not (p.evaluate verdict) := by
  induction p with
  | atom a => exact ⟨Cnf.evaluate_ofLiteral verdict _, Cnf.evaluate_ofLiteral verdict _⟩
  | not p ih =>
      obtain ⟨htrue, hfalse⟩ := ih
      refine ⟨hfalse, ?_⟩
      rw [evaluate, Verdict.not_not]
      exact htrue
  | and p q ihp ihq =>
      simp only [normalForm, Cnf.evaluate_and, Cnf.evaluate_or, ihp, ihq, evaluate,
        Verdict.not_and, and_self]
  | or p q ihp ihq =>
      simp only [normalForm, Cnf.evaluate_and, Cnf.evaluate_or, ihp, ihq, evaluate,
        Verdict.not_or, and_self]
  | xor p q ihp ihq =>
      simp only [normalForm, Cnf.evaluate_and, Cnf.evaluate_or, ihp, ihq, evaluate,
        Verdict.not_xor, and_true]
      exact (Verdict.xor_eq _ _).symm

theorem evaluate_toCnf (verdict : α → Verdict) (p : Formula α) :
    p.toCnf.evaluate verdict = p.evaluate verdict :=
  (p.evaluate_normalForm verdict).1

end Formula

/-! ## Atoms -/

namespace Cnf

/-- There is a clause, and every clause has a literal. -/
structure IsProper (n : Cnf α) : Prop where
  clauses : n.clauses ≠ []
  literals : ∀ c ∈ n.clauses, c.literals ≠ []

theorem isProper_ofLiteral (l : Literal α) : (ofLiteral l).IsProper where
  clauses := List.cons_ne_nil _ _
  literals := by simp [ofLiteral]

theorem IsProper.and {m n : Cnf α} (hm : m.IsProper) (hn : n.IsProper) : (m.and n).IsProper where
  clauses := List.append_ne_nil_of_left_ne_nil hm.clauses _
  literals := by
    intro c hc
    rcases List.mem_append.1 hc with hc | hc
    · exact hm.literals c hc
    · exact hn.literals c hc

theorem mem_clauses_or {m n : Cnf α} {e : Clause α} :
    e ∈ (m.or n).clauses ↔ ∃ c ∈ m.clauses, ∃ d ∈ n.clauses, c.append d = e := by
  simp only [Cnf.or, List.mem_flatMap, List.mem_map]

theorem IsProper.or {m n : Cnf α} (hm : m.IsProper) (hn : n.IsProper) : (m.or n).IsProper where
  clauses := by
    obtain ⟨c, hc⟩ := List.exists_mem_of_ne_nil _ hm.clauses
    obtain ⟨d, hd⟩ := List.exists_mem_of_ne_nil _ hn.clauses
    exact List.ne_nil_of_mem (mem_clauses_or.2 ⟨c, hc, d, hd, rfl⟩)
  literals := by
    intro e he
    obtain ⟨c, hc, d, -, rfl⟩ := mem_clauses_or.1 he
    exact List.append_ne_nil_of_left_ne_nil (hm.literals c hc) _

theorem mem_atoms {n : Cnf α} {a : α} :
    a ∈ n.atoms ↔ ∃ c ∈ n.clauses, ∃ l ∈ c.literals, l.atom = a := by
  simp only [atoms, List.mem_flatMap, List.mem_map]

theorem mem_atoms_and {m n : Cnf α} {a : α} :
    a ∈ (m.and n).atoms ↔ a ∈ m.atoms ∨ a ∈ n.atoms := by
  rw [atoms, Cnf.and, List.flatMap_append, List.mem_append]
  rfl

/-- Without a clause on one side nothing would be left of the other. -/
theorem mem_atoms_or {m n : Cnf α} (hm : m.IsProper) (hn : n.IsProper) {a : α} :
    a ∈ (m.or n).atoms ↔ a ∈ m.atoms ∨ a ∈ n.atoms := by
  constructor
  · intro h
    obtain ⟨e, he, l, hl, rfl⟩ := mem_atoms.1 h
    obtain ⟨c, hc, d, hd, rfl⟩ := mem_clauses_or.1 he
    rcases List.mem_append.1 hl with hl | hl
    · exact .inl (mem_atoms.2 ⟨c, hc, l, hl, rfl⟩)
    · exact .inr (mem_atoms.2 ⟨d, hd, l, hl, rfl⟩)
  · rintro (h | h)
    · obtain ⟨c, hc, l, hl, rfl⟩ := mem_atoms.1 h
      obtain ⟨d, hd⟩ := List.exists_mem_of_ne_nil _ hn.clauses
      have hclause : c.append d ∈ (m.or n).clauses := mem_clauses_or.2 ⟨c, hc, d, hd, rfl⟩
      exact mem_atoms.2 ⟨_, hclause, l, List.mem_append_left _ hl, rfl⟩
    · obtain ⟨d, hd, l, hl, rfl⟩ := mem_atoms.1 h
      obtain ⟨c, hc⟩ := List.exists_mem_of_ne_nil _ hm.clauses
      have hclause : c.append d ∈ (m.or n).clauses := mem_clauses_or.2 ⟨c, hc, d, hd, rfl⟩
      exact mem_atoms.2 ⟨_, hclause, l, List.mem_append_right _ hl, rfl⟩

theorem mem_atoms_foldl_and {m : Cnf α} {ns : List (Cnf α)} {a : α} :
    a ∈ (ns.foldl and m).atoms ↔ a ∈ m.atoms ∨ ∃ n ∈ ns, a ∈ n.atoms := by
  induction ns generalizing m with
  | nil => simp
  | cons n ns ih => rw [List.foldl_cons, ih, mem_atoms_and, List.exists_mem_cons_iff, or_assoc]

end Cnf

namespace Formula

theorem isProper_normalForm (p : Formula α) (sign : Bool) : (p.normalForm sign).IsProper := by
  induction p generalizing sign with
  | atom a => cases sign <;> exact Cnf.isProper_ofLiteral _
  | not p ih => cases sign <;> exact ih _
  | and p q ihp ihq =>
      cases sign with
      | true => exact (ihp true).and (ihq true)
      | false => exact (ihp false).or (ihq false)
  | or p q ihp ihq =>
      cases sign with
      | true => exact (ihp true).or (ihq true)
      | false => exact (ihp false).and (ihq false)
  | xor p q ihp ihq =>
      cases sign with
      | true => exact ((ihp true).and (ihq false)).or ((ihp false).and (ihq true))
      | false => exact ((ihp true).and (ihq true)).or ((ihp false).and (ihq false))

/-- A normal form has exactly the atoms of its formula. -/
theorem mem_atoms_normalForm {p : Formula α} (sign : Bool) {a : α} :
    a ∈ (p.normalForm sign).atoms ↔ a ∈ p.atoms := by
  induction p generalizing sign with
  | atom b => cases sign <;> exact Iff.rfl
  | not p ih => cases sign <;> exact ih _
  | and p q ihp ihq =>
      rw [atoms, List.mem_append]
      cases sign with
      | true => rw [normalForm, Cnf.mem_atoms_and, ihp _, ihq _]
      | false =>
        rw [normalForm, Cnf.mem_atoms_or (p.isProper_normalForm _) (q.isProper_normalForm _),
          ihp _, ihq _]
  | or p q ihp ihq =>
      rw [atoms, List.mem_append]
      cases sign with
      | true =>
        rw [normalForm, Cnf.mem_atoms_or (p.isProper_normalForm _) (q.isProper_normalForm _),
          ihp _, ihq _]
      | false => rw [normalForm, Cnf.mem_atoms_and, ihp _, ihq _]
  | xor p q ihp ihq =>
      -- both operands are on both sides of the disjunction
      have hsides (sign sign' : Bool) :
          ((p.normalForm sign).and (q.normalForm sign')).IsProper :=
        (p.isProper_normalForm sign).and (q.isProper_normalForm sign')
      rw [atoms, List.mem_append]
      cases sign <;>
        rw [normalForm, Cnf.mem_atoms_or (hsides _ _) (hsides _ _), Cnf.mem_atoms_and,
          Cnf.mem_atoms_and, ihp _, ihp _, ihq _, ihq _, or_self]

end Formula

/-! ## Verdicts that are right -/

theorem Verdict.isRight_none (truth : Prop) : IsRight none truth := by
  intro b hb
  simp at hb

theorem Verdict.isRight_some {b : Bool} {truth : Prop} :
    IsRight (some b) truth ↔ (truth ↔ b = true) := by
  constructor
  · intro h
    exact h b rfl
  · intro h b' hb
    rwa [← Option.some.inj hb]

section

variable {verdict : α → Verdict} {truth : α → Prop}

theorem Literal.isRight_evaluate {l : Literal α}
    (h : (verdict l.atom).IsRight (truth l.atom)) :
    (l.evaluate verdict).IsRight (l.Holds truth) := by
  intro b hb
  cases l with
  | positive a => exact h b hb
  | negative a =>
      have hnot := h (!b) (Verdict.not_eq_some.1 hb)
      rw [Literal.Holds]
      rw [Literal.atom] at hnot
      cases b <;> simp [hnot]

theorem Clause.isRight_evaluate {c : Clause α}
    (h : ∀ l ∈ c.literals, (verdict l.atom).IsRight (truth l.atom)) :
    (c.evaluate verdict).IsRight (c.Holds truth) := by
  intro b hb
  rw [Clause.evaluate] at hb
  cases b with
  | true =>
      obtain ⟨_, hv, htrue⟩ := Verdict.any_eq_true.1 hb
      obtain ⟨l, hl, rfl⟩ := List.mem_map.1 hv
      have hholds := (Literal.isRight_evaluate (h l hl) true htrue).2 rfl
      exact iff_of_true ⟨l, hl, hholds⟩ rfl
  | false =>
      have hfalse := Verdict.any_eq_false.1 hb
      refine iff_of_false ?_ Bool.false_ne_true
      rintro ⟨l, hl, hholds⟩
      have hl' := hfalse _ (List.mem_map_of_mem hl)
      exact Bool.false_ne_true ((Literal.isRight_evaluate (h l hl) false hl').1 hholds)

/-- A verdict that is right about the atoms is right about the normal form. -/
theorem Cnf.isRight_evaluate {n : Cnf α}
    (h : ∀ a ∈ n.atoms, (verdict a).IsRight (truth a)) :
    (n.evaluate verdict).IsRight (n.Holds truth) := by
  have hclause : ∀ c ∈ n.clauses, (c.evaluate verdict).IsRight (c.Holds truth) := by
    intro c hc
    apply Clause.isRight_evaluate
    intro l hl
    exact h l.atom (List.mem_flatMap.2 ⟨c, hc, List.mem_map_of_mem hl⟩)
  intro b hb
  rw [Cnf.evaluate] at hb
  cases b with
  | true =>
      have htrue := Verdict.all_eq_true.1 hb
      refine iff_of_true ?_ rfl
      intro c hc
      exact (hclause c hc true (htrue _ (List.mem_map_of_mem hc))).2 rfl
  | false =>
      obtain ⟨_, hv, hfalse⟩ := Verdict.all_eq_false.1 hb
      obtain ⟨c, hc, rfl⟩ := List.mem_map.1 hv
      refine iff_of_false ?_ Bool.false_ne_true
      intro hholds
      exact Bool.false_ne_true ((hclause c hc false hfalse).1 (hholds c hc))

end

/-! ## Truth as a verdict without open atoms -/

section

open Classical

theorem Verdict.isRight_ofTruth (truth : Prop) : (ofTruth truth).IsRight truth := by
  intro b hb
  rw [ofTruth, Option.some.injEq] at hb
  rw [← hb, decide_eq_true_iff]

theorem Verdict.ofTruth_eq_some {truth : Prop} {b : Bool} :
    ofTruth truth = some b ↔ (truth ↔ b = true) := by
  rw [ofTruth, Option.some_inj, Bool.eq_iff_iff, decide_eq_true_iff]

theorem Formula.evaluate_ofTruth (truth : α → Prop) (p : Formula α) :
    p.evaluate (fun a => .ofTruth (truth a)) = .ofTruth (p.Holds truth) := by
  induction p with
  | atom a => rfl
  | not p ih =>
      rw [evaluate, ih, Holds]
      by_cases hp : p.Holds truth <;> simp [Verdict.ofTruth, Verdict.not, hp]
  | and p q ihp ihq | or p q ihp ihq | xor p q ihp ihq =>
      rw [evaluate, ihp, ihq, Holds]
      by_cases hp : p.Holds truth <;> by_cases hq : q.Holds truth <;>
        simp [Verdict.ofTruth, Verdict.and, Verdict.or, Verdict.xor, hp, hq]

theorem Formula.holds_toCnf (truth : α → Prop) (p : Formula α) :
    p.toCnf.Holds truth ↔ p.Holds truth := by
  have hverdict : p.toCnf.evaluate (fun a => .ofTruth (truth a)) = .ofTruth (p.Holds truth) := by
    rw [evaluate_toCnf, evaluate_ofTruth]
  have hright := Cnf.isRight_evaluate (n := p.toCnf) fun a _ => Verdict.isRight_ofTruth (truth a)
  rw [hright _ hverdict, decide_eq_true_iff]

end

/-- Every predicate has the verdict of its normal form: under all verdicts on the comparisons, under
all ways the data can be, and by the static verdicts. -/
theorem Predicate.normal_form_is_exact (p : Predicate) :
    (∀ verdict : Comparison → Verdict,
      Cnf.evaluate verdict p.toCnf = Formula.evaluate verdict p) ∧
    (∀ truth : Comparison → Prop, Cnf.Holds truth p.toCnf ↔ Formula.Holds truth p) ∧
    NormalForm.evaluate p.toCnf = Predicate.evaluate p := by
  refine ⟨?_, ?_, ?_⟩
  · intro verdict
    exact Formula.evaluate_toCnf verdict p
  · intro truth
    exact Formula.holds_toCnf truth p
  · exact Formula.evaluate_toCnf Comparison.evaluate p

end TemporalPattern
