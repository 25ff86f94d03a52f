import TemporalPattern.Proofs.NormalForm
import TemporalPattern.Proofs.References
import TemporalPattern.Proofs.Totality

/-!
# Normalization and conversion keep the variables

Normalizing adds the variables of the pattern to those of a predicate where it is about the whole
pattern, and takes none away.  The conversion to a normal form has every comparison in some literal,
since no operand of a disjunction is without clauses.
-/

namespace TemporalPattern

/-! ## The normal form of a predicate -/

namespace NormalForm

variable {n : NormalForm} {name : String}

theorem mem_variableNames : name ∈ n.variableNames ↔ ∃ c ∈ n.atoms, name ∈ c.mentions := by
  rw [variableNames, List.mem_eraseDups, List.mem_flatMap]

theorem mem_variableNames_toCnf {p : Predicate} :
    name ∈ variableNames p.toCnf ↔ name ∈ Predicate.variableNames p := by
  simp only [mem_variableNames, Predicate.mem_variableNames, Formula.toCnf,
    Formula.mem_atoms_normalForm]

theorem isTemporal_toCnf (p : Predicate) : isTemporal p.toCnf = Predicate.isTemporal p := by
  rw [Bool.eq_iff_iff]
  simp only [isTemporal, Predicate.isTemporal, List.any_eq_true, Formula.toCnf,
    Formula.mem_atoms_normalForm]

end NormalForm

namespace Predicate

variable {names : List String} {p q : Predicate}

/-- In a pattern without the reserved name among its variables, a normalized predicate has the
variables it had before, and all those of the pattern if it was about the whole pattern.  Its normal
form has a clause, no empty clause and the same comparisons, so the same variables, and all three
are temporal or none is. -/
theorem normalization_keeps_references {now : Millis} (hnames : globalVariable ∉ names)
    (h : normalize (Scope.ofNames names now).names p = .ok q) :
    (∀ name, name ∈ variableNames q ↔
      name ∈ variableNames p ∨ (isGlobal p ∧ name ∈ names)) ∧
    q.toCnf.clauses ≠ [] ∧
    (∀ clause ∈ q.toCnf.clauses, clause.literals ≠ []) ∧
    (∀ c, (∃ clause ∈ q.toCnf.clauses, ∃ l ∈ clause.literals, l.atom = c) ↔ c ∈ q.atoms) ∧
    (∀ name, name ∈ NormalForm.variableNames q.toCnf ↔ name ∈ variableNames q) ∧
    NormalForm.isTemporal q.toCnf = isTemporal q ∧
    isTemporal q = isTemporal p := by
  have hproper := q.isProper_normalForm true
  refine ⟨?_, hproper.clauses, hproper.literals, ?_, ?_, ?_, ?_⟩
  · intro name
    have hdeclared : name ∈ (Scope.ofNames names now).names ∧ name ≠ globalVariable ↔
        name ∈ names := by
      rw [Scope.ofNames, List.mem_eraseDups, and_iff_left_iff_imp]
      rintro hname rfl
      exact hnames hname
    rw [mem_variableNames_normalize h, hdeclared]
  · intro c
    rw [← Cnf.mem_atoms]
    exact Formula.mem_atoms_normalForm true
  · intro name
    exact NormalForm.mem_variableNames_toCnf
  · exact NormalForm.isTemporal_toCnf q
  · rw [Bool.eq_iff_iff]
    exact isTemporal_normalize h

/-- An exclusive or of a comparison of the whole pattern with an element and one of a label, in a
pattern with two variables of which one is declared twice. -/
theorem normalization_keeps_references_of_exclusive_or :
    ∃ p : Predicate, p = .xor
        (.not (.atom (.ofTimes (.selector globalVariable Axis.valid.start) .neq
          (.aggregate .min [.selector "c" Axis.valid.stop, .literal 7]))))
        (.atom ⟨.label "d", .eq, .value (.text "Person")⟩) ∧
      globalVariable ∉ ["a", "b", "a"] ∧
      ∃ q, normalize (Scope.ofNames ["a", "b", "a"] 0).names p = .ok q ∧
        "b" ∈ variableNames q ∧ "c" ∈ variableNames q ∧ "d" ∈ variableNames q ∧
        "e" ∉ variableNames q ∧ "d" ∈ NormalForm.variableNames q.toCnf ∧ isTemporal q = true := by
  have hnames : globalVariable ∉ ["a", "b", "a"] := by decide
  refine ⟨_, rfl, hnames, ?_⟩
  generalize hp : Formula.xor _ _ = p
  have hordinary : Predicate.IsOrdinary (fun _ => True) p := by
    rw [← hp]
    have hliteral : (TimePoint.literal 7).IsInstant fun _ => True := .literal trivial
    have hmin := Aggregate.isInstant_pair .min (.selector "c" Axis.valid.stop) hliteral
    refine isOrdinary_and (isOrdinary_compare_instants (.selector _ _) hmin) ?_
    intro c hc
    obtain rfl := List.mem_singleton.1 hc
    exact ⟨trivial, trivial⟩
  have hdeclared : (Scope.ofNames ["a", "b", "a"] 0).names ≠ [] := by decide
  obtain ⟨q, hq⟩ := exists_normalize_of_isOrdinary hordinary fun hnil => absurd hnil hdeclared
  subst hp
  obtain ⟨hvariables, -, -, -, hcnf, -, htemporal⟩ := normalization_keeps_references hnames hq
  have hlabel : "d" ∈ variableNames q := (hvariables "d").2 (.inl (by decide))
  refine ⟨q, hq, ?_, ?_, hlabel, ?_, (hcnf "d").2 hlabel, htemporal⟩
  · exact (hvariables "b").2 (.inr (by decide))
  · exact (hvariables "c").2 (.inl (by decide))
  · exact mt (hvariables "e").1 (by decide)

end Predicate
end TemporalPattern
