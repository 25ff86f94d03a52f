import TemporalPattern.Proofs.NormalForm
import TemporalPattern.Proofs.Normalizing
import TemporalPattern.Query.Valuation

/-!
# What a compiled query means

A filter is elaborated, normalized and converted, and then joined to what the elements imply.  Every
step after the first keeps the meaning, so the normal form holds of exactly the data that the query
asks for.
-/

namespace TemporalPattern

universe u

variable {D : Type u} [LinearOrder D]

/-! ## Joining normal forms -/

namespace Cnf

variable {α : Type} {truth : α → Prop}

theorem holds_top : (top : Cnf α).Holds truth := by
  intro c hc
  simp [top] at hc

theorem holds_ofLiteral {l : Literal α} : (ofLiteral l).Holds truth ↔ l.Holds truth := by
  simp [ofLiteral, Holds, Clause.Holds]

theorem holds_and {m n : Cnf α} :
    (m.and n).Holds truth ↔ m.Holds truth ∧ n.Holds truth := by
  unfold Holds and
  exact List.forall_mem_append

theorem holds_foldl_and {m : Cnf α} {ns : List (Cnf α)} :
    (ns.foldl and m).Holds truth ↔ m.Holds truth ∧ ∀ n ∈ ns, n.Holds truth := by
  induction ns generalizing m with
  | nil => simp
  | cons n ns ih => rw [List.foldl_cons, ih, holds_and, List.forall_mem_cons, and_assoc]

end Cnf

/-! ## Elements -/

namespace Element

/-- The label and the properties, one comparison each. -/
theorem satisfies_comparisons (s : Settings) (e : Element) (v : Valuation D) :
    (∀ c ∈ e.comparisons s, v.Satisfies c) ↔ e.Holds s v := by
  unfold comparisons Holds
  rw [List.forall_mem_append, List.forall_mem_map, List.forall_mem_map]
  apply and_congr
  · constructor
    · intro h label hlabel hne
      exact h label (List.mem_filter.2 ⟨Option.mem_toList.2 hlabel, decide_eq_true hne⟩)
    · intro h label hlabel
      obtain ⟨hlabel, hne⟩ := List.mem_filter.1 hlabel
      exact h label (Option.mem_toList.1 hlabel) (of_decide_eq_true hne)
  · exact Iff.rfl

theorem holds_normalForm (s : Settings) (e : Element) (v : Valuation D) :
    (e.normalForm s).Holds v.Satisfies ↔ e.Holds s v := by
  rw [normalForm_eq, Cnf.holds_foldl_and, List.forall_mem_map, ← satisfies_comparisons]
  simp only [Cnf.holds_ofLiteral]
  exact and_iff_right Cnf.holds_top

end Element

/-! ## Queries -/

namespace Query

theorem holds_implied (s : Settings) (q : Query) (v : Valuation D) :
    (q.implied s).Holds v.Satisfies ↔ ∀ e ∈ q.elements, e.Holds s v := by
  rw [implied, Cnf.holds_foldl_and, List.forall_mem_map]
  simp only [Element.holds_normalForm]
  exact and_iff_right Cnf.holds_top

/-- A compiled query holds of exactly the data that has the labels and properties of the elements
and of which the filter is true, where the whole pattern starts at the latest start of its variables
and stops at their earliest stop.  No variable has to be kept apart from the reserved one: under
that name a selector means the whole pattern whether or not an element is called so. -/
theorem compile_preserves_meaning {s : Settings} {now : Millis} {elements : List Element}
    {f : Filter} {n : NormalForm} (h : compile s now ⟨elements, some f⟩ = .ok n) :
    ∃ p, f.elaborate (.ofNames (elements.map (·.name)) now) = .ok p ∧
      ∀ {D : Type u} [LinearOrder D] (v : Valuation D),
        n.Holds v.Satisfies ↔ Query.Holds s v ⟨elements, some f⟩ p := by
  simp only [compile, scope, bind_eq_ok, pure_eq_ok] at h
  obtain ⟨m, hm, rfl⟩ := h
  obtain ⟨p, hp, q, hq, rfl⟩ := Filter.compile_eq_ok.1 hm
  refine ⟨p, hp, ?_⟩
  intro D _ v
  -- filters are compiled without repeated names, which no extreme depends on
  have hnames : v.ofPattern (elements.map (·.name)).eraseDups =
      v.ofPattern (elements.map (·.name)) := by
    rw [Valuation.ofPattern, Valuation.ofPattern,
      Timeline.ofPattern_congr fun name => List.mem_eraseDups]
  have hfilter : q.toCnf.Holds v.Satisfies ↔
      p.Holds (v.ofPattern (elements.map (·.name))).Satisfies := by
    rw [Formula.holds_toCnf, Predicate.holds_normalize hq, Scope.ofNames, hnames]
  rw [Cnf.holds_and, holds_implied, hfilter, Query.Holds]

/-- A pattern that must not start before one of its elements stops. -/
theorem compile_preserves_meaning_of_negation :
    let elements : List Element := [⟨"a", .vertex, some "Person", []⟩, ⟨"b", .edge, none, []⟩]
    let filter : Filter := .not (.timestampCall (.selector none Axis.valid.start) "before"
      [.timestamp (.selector (some "a") Axis.valid.stop)])
    let early (name : String) : Comparison :=
      .ofTimes (.selector name Axis.valid.start) .lt (.selector "a" Axis.valid.stop)
    let n : NormalForm := ⟨[⟨[.positive ⟨.label "a", .eq, .value (.text "Person")⟩]⟩,
      ⟨[.negative (early "a"), .negative (early "b")]⟩]⟩
    compile {} 0 ⟨elements, some filter⟩ = .ok n ∧
    ∃ p, filter.elaborate (.ofNames (elements.map (·.name)) 0) = .ok p ∧
      ∀ {D : Type} [LinearOrder D] (v : Valuation D),
        n.Holds v.Satisfies ↔ Query.Holds {} v ⟨elements, some filter⟩ p := by
  intro elements filter early n
  have hcompile : compile {} 0 ⟨elements, some filter⟩ = .ok n := by
    cbv
  exact ⟨hcompile, compile_preserves_meaning hcompile⟩

end Query
end TemporalPattern
