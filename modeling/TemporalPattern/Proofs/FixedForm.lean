import TemporalPattern.Proofs.NormalForm
import TemporalPattern.Proofs.References
import TemporalPattern.Proofs.Totality

/-!
# What normalization leaves

In a pattern without the reserved name among its variables, a normalized predicate has no selector
of the whole pattern left and compares no aggregates.  On such predicates both steps of
normalization are the identity, so normalizing once more changes nothing.
-/

namespace TemporalPattern

namespace Predicate

variable {names : List String} {p q : Predicate}

theorem isNormalized_of_normalize (hnames : globalVariable ∉ names)
    (h : normalize names p = .ok q) : IsNormalized q := by
  have hlocal := not_isGlobal_normalize hnames h
  rw [normalize_eq, bind_eq_ok] at h
  obtain ⟨r, -, hq⟩ := h
  have hatomic := (isUnfolding_unfoldAggregates.{0} hq).atomic
  intro c hc
  have hc' : ¬ c.isGlobal := fun hglobal => hlocal (List.any_eq_true.2 ⟨c, hc, hglobal⟩)
  exact ⟨hc', (hatomic c hc).1, (hatomic c hc).2⟩

theorem normalize_of_isNormalized (h : IsNormalized p) : normalize names p = .ok p := by
  have hlocal : ¬ isGlobal p := by
    intro hglobal
    obtain ⟨c, hc, hglobal⟩ := List.any_eq_true.1 hglobal
    exact (h c hc).isLocal hglobal
  rw [normalize_eq, resolve_of_not_isGlobal hlocal]
  exact unfoldAggregates_of_atomic fun c hc => ⟨(h c hc).lhs, (h c hc).rhs⟩

/-- Normalization ends at a predicate that it does not change any more, and every literal of a
compiled filter is one of a comparison in such a predicate. -/
theorem normalization_reaches_fixed_form (hnames : globalVariable ∉ names) (now : Millis) :
    (∀ p q, normalize (Scope.ofNames names now).names p = .ok q →
      ¬ isGlobal q ∧ (∀ c ∈ q.atoms, c.IsNormalized) ∧
        normalize (Scope.ofNames names now).names q = .ok q) ∧
    ∀ (f : Filter) (n : NormalForm), f.compile (.ofNames names now) = .ok n →
      ∀ clause ∈ n.clauses, ∀ l ∈ clause.literals, l.atom.IsNormalized := by
  have hdeclared : globalVariable ∉ (Scope.ofNames names now).names :=
    fun hname => hnames (List.mem_eraseDups.1 hname)
  constructor
  · intro p q h
    have hnormalized := isNormalized_of_normalize hdeclared h
    exact ⟨not_isGlobal_normalize hdeclared h, hnormalized,
      normalize_of_isNormalized hnormalized⟩
  · intro f n h clause hclause l hl
    obtain ⟨p, -, q, hq, rfl⟩ := Filter.compile_eq_ok.1 h
    have hatom : l.atom ∈ q.toCnf.atoms := Cnf.mem_atoms.2 ⟨clause, hclause, l, hl, rfl⟩
    exact isNormalized_of_normalize hdeclared hq _ ((Formula.mem_atoms_normalForm true).1 hatom)

/-- How long the whole pattern is, and when the latest of it and a given instant is. -/
theorem normalization_reaches_fixed_form_of_length :
    ∃ f : Filter, f = .and
        (.intervalCall (.selector none .valid) "longerThan"
          [.interval (.selector (some "a") .valid)])
        (.timestampCall (.aggregate .max [.selector none Axis.valid.start, .literal "2020-01-01"])
          "before" [.timestamp (.selector none Axis.valid.stop)]) ∧
      globalVariable ∉ ["a", "b"] ∧
      ∃ p, f.elaborate (.ofNames ["a", "b"] 0) = .ok p ∧ isGlobal p ∧
        ∃ q, normalize (Scope.ofNames ["a", "b"] 0).names p = .ok q ∧
          ¬ isGlobal q ∧ (∀ c ∈ q.atoms, c.IsNormalized) ∧
          normalize (Scope.ofNames ["a", "b"] 0).names q = .ok q ∧
          f.compile (.ofNames ["a", "b"] 0) = .ok q.toCnf ∧
          ∀ clause ∈ q.toCnf.clauses, ∀ l ∈ clause.literals, l.atom.IsNormalized := by
  have hnames : globalVariable ∉ ["a", "b"] := by decide
  refine ⟨_, rfl, hnames, ?_⟩
  generalize hf : Filter.and _ _ = f
  have hresult : (f.elaborate (.ofNames ["a", "b"] 0)).map isGlobal = .ok true := by
    rw [← hf]
    decide +kernel
  obtain ⟨p, hp, hglobal⟩ := map_eq_ok.1 hresult
  have hordinary : Predicate.IsOrdinary (fun _ => True) p :=
    Filter.isOrdinary_of_elaborate (fun _ _ _ => trivial) hp
  have hdeclared : (Scope.ofNames ["a", "b"] 0).names ≠ [] := by decide
  obtain ⟨q, hq⟩ := exists_normalize_of_isOrdinary hordinary fun hnil => absurd hnil hdeclared
  have hcompile : f.compile (.ofNames ["a", "b"] 0) = .ok q.toCnf :=
    Filter.compile_eq_ok.2 ⟨p, hp, q, hq, rfl⟩
  obtain ⟨hnormalize, hliterals⟩ := normalization_reaches_fixed_form hnames 0
  obtain ⟨hlocal, hnormalized, hfixed⟩ := hnormalize p q hq
  exact ⟨p, hp, hglobal, q, hq, hlocal, hnormalized, hfixed, hcompile, hliterals f _ hcompile⟩

end Predicate
end TemporalPattern
