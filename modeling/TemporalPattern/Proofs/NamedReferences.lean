import TemporalPattern.Proofs.KeptReferences
import TemporalPattern.Proofs.WrittenNames
import TemporalPattern.Proofs.WrittenReferences

/-!
# Filters in which every reference has a name

Such a filter depends on the declared variables only as far as they are written in it, unless one of
them has the reserved name.  A time of that variable is taken for a time of the whole pattern, and
then every other variable of the pattern comes in.
-/

namespace TemporalPattern

variable {names names' : List String} {now : Millis}

theorem Scope.agreeOn_ofNames {written : List String} (hwritten : written ⊆ names)
    (hsub : names ⊆ names') : AgreeOn written (.ofNames names now) (.ofNames names' now) where
  now := rfl
  declared := by
    intro name hname
    rw [ofNames, ofNames, List.mem_eraseDups, List.mem_eraseDups]
    exact iff_of_true (hwritten hname) (hsub (hwritten hname))

theorem Reference.name?_encoded {r : Reference} {name : String}
    (h : r.encoded.name? = some name) : r.name? = some name := by
  cases r with
  | time name' =>
      obtain ⟨rfl, -⟩ := name?_ofSelector.1 h
      rfl
  | element _ | pattern => exact h

theorem Predicate.normalize_congr {p : Predicate} (h : ¬ isGlobal p)
    (names names' : List String) : normalize names p = normalize names' p := by
  rw [normalize_eq, normalize_eq, resolve_of_not_isGlobal h, resolve_of_not_isGlobal h]

namespace Filter

variable {s : Scope} {f : Filter} {p : Predicate}

/-- Besides a time without a name, one of the reserved name is about the whole pattern. -/
theorem isGlobal_elaborate_iff (h : f.elaborate s = .ok p) :
    Predicate.isGlobal p ↔
      .pattern ∈ f.references ∨ .time globalVariable ∈ f.references := by
  rw [Predicate.isGlobal_iff, mem_references_elaborate h, List.mem_map]
  constructor
  · rintro ⟨r, hr, hencoded⟩
    cases r with
    | element name => simp [Reference.encoded] at hencoded
    | time name =>
        rw [Reference.encoded, Reference.ofSelector_eq_pattern] at hencoded
        exact .inr (hencoded ▸ hr)
    | pattern => exact .inl hr
  · rintro (hr | hr)
    · exact ⟨_, hr, rfl⟩
    · exact ⟨_, hr, Reference.ofSelector_eq_pattern.2 rfl⟩

theorem variableNames_subset_of_elaborate (h : f.elaborate s = .ok p) :
    Predicate.variableNames p ⊆ f.names := by
  intro name hname
  obtain ⟨r, hr, hname⟩ := Predicate.mem_variableNames_iff.1 hname
  obtain ⟨r', hr', rfl⟩ := List.mem_map.1 ((mem_references_elaborate h).1 hr)
  rw [names_eq, List.mem_filterMap]
  exact ⟨r', hr', Reference.name?_encoded hname⟩

theorem compile_congr (hagree : Scope.AgreeOn f.names (.ofNames names now) (.ofNames names' now))
    (hlocal : ∀ p, f.elaborate (.ofNames names now) = .ok p → ¬ Predicate.isGlobal p) :
    f.compile (.ofNames names now) = f.compile (.ofNames names' now) := by
  rw [compile, compile, ← elaborate_congr hagree]
  cases h : f.elaborate (.ofNames names now) with
  | error e => rfl
  | ok p =>
      have hnormalize := Predicate.normalize_congr (hlocal p h)
        (Scope.ofNames names now).names (Scope.ofNames names' now).names
      exact congrArg (· >>= fun q : Predicate => pure q.toCnf) hnormalize

/-- With a time of the whole pattern, another variable is one more of the normal form. -/
theorem compile_ne_of_isGlobal (h : f.elaborate (.ofNames names now) = .ok p)
    (h' : f.elaborate (.ofNames names' now) = .ok p) (hglobal : Predicate.isGlobal p)
    (hreserved : globalVariable ∈ names) (hwritten : f.names ⊆ names) (hsub : names ⊆ names')
    (hmore : ¬ names' ⊆ names) :
    f.compile (.ofNames names now) ≠ f.compile (.ofNames names' now) := by
  have hmem {names : List String} {name : String} :
      name ∈ (Scope.ofNames names now).names ↔ name ∈ names := List.mem_eraseDups
  have hordinary : Predicate.IsOrdinary (fun _ => True) p :=
    isOrdinary_of_elaborate (fun _ _ _ => trivial) h
  obtain ⟨q, hq⟩ := Predicate.exists_normalize_of_isOrdinary hordinary
    fun hnil => absurd hnil (List.ne_nil_of_mem (hmem.2 hreserved))
  obtain ⟨q', hq'⟩ := Predicate.exists_normalize_of_isOrdinary hordinary
    fun hnil => absurd hnil (List.ne_nil_of_mem (hmem.2 (hsub hreserved)))
  rw [compile_eq_ok.2 ⟨p, h, q, hq, rfl⟩, compile_eq_ok.2 ⟨p, h', q', hq', rfl⟩]
  intro heq
  have hcnf : q.toCnf = q'.toCnf := Except.ok.inj heq
  -- A name of the longer list is in its normal form, hence in the other one, hence declared there.
  apply hmore
  intro name hname
  by_cases hname' : name = globalVariable
  · rwa [hname']
  have hnew : name ∈ Predicate.variableNames q' :=
    (Predicate.mem_variableNames_normalize hq').2 (.inr ⟨hglobal, hmem.2 hname, hname'⟩)
  rw [← NormalForm.mem_variableNames_toCnf, ← hcnf, NormalForm.mem_variableNames_toCnf,
    Predicate.mem_variableNames_normalize hq] at hnew
  rcases hnew with hold | ⟨-, hdeclared, -⟩
  · exact hwritten (variableNames_subset_of_elaborate h hold)
  · exact hmem.1 hdeclared

/-- Let every reference of a filter have a name and let all these names be declared.  Unless one of
them is the reserved name, used for a time, more declarations do not change what the filter is
compiled to.  If it is, a further variable always changes it, except that a filter which cannot be
elaborated fails for the same reason as before. -/
theorem named_references_are_independent (hnamed : .pattern ∉ f.references)
    (hwritten : f.names ⊆ names) (hsub : names ⊆ names') :
    (.time globalVariable ∉ f.references →
      f.compile (.ofNames names now) = f.compile (.ofNames names' now)) ∧
    (.time globalVariable ∈ f.references → ¬ names' ⊆ names →
      (f.compile (.ofNames names now) = f.compile (.ofNames names' now) ↔
        ¬ ∃ p, f.elaborate (.ofNames names now) = .ok p)) := by
  have hagree : Scope.AgreeOn f.names (.ofNames names now) (.ofNames names' now) :=
    Scope.agreeOn_ofNames hwritten hsub
  constructor
  · intro hreserved
    apply compile_congr hagree
    intro p hp hglobal
    exact ((isGlobal_elaborate_iff hp).1 hglobal).elim hnamed hreserved
  · intro hreserved hmore
    constructor
    · rintro heq ⟨p, hp⟩
      have hglobal := (isGlobal_elaborate_iff hp).2 (.inr hreserved)
      have hdeclared : globalVariable ∈ names := by
        apply hwritten
        rw [names_eq, List.mem_filterMap]
        exact ⟨_, hreserved, rfl⟩
      have hp' : f.elaborate (.ofNames names' now) = .ok p := by rw [← elaborate_congr hagree, hp]
      exact compile_ne_of_isGlobal hp hp' hglobal hdeclared hwritten hsub hmore heq
    · intro hfails
      exact compile_congr hagree fun p hp => absurd ⟨p, hp⟩ hfails

/-- A filter about two elements in a pattern with a third one, and a filter about a variable with
the reserved name. -/
theorem named_references_are_independent_of_third_element :
    (∃ f : Filter, f = .timestampCall (.selector (some "a") Axis.valid.start) "precedes"
        [.interval (.merge (.selector (some "b") .valid) (.selector (some "b") .transaction))] ∧
      .pattern ∉ f.references ∧ f.names ⊆ ["a", "b"] ∧ ["a", "b"] ⊆ ["c", "b", "a"] ∧
      .time globalVariable ∉ f.references ∧
      f.compile (.ofNames ["a", "b"] 0) = f.compile (.ofNames ["c", "b", "a"] 0)) ∧
    ∃ f : Filter, f = .timestampCall (.selector (some globalVariable) Axis.valid.start) "precedes"
        [.timestamp (.literal "2020-13-01")] ∧
      .pattern ∉ f.references ∧ f.names ⊆ [globalVariable] ∧
      [globalVariable] ⊆ [globalVariable, "b"] ∧ .time globalVariable ∈ f.references ∧
      ¬ [globalVariable, "b"] ⊆ [globalVariable] ∧
      (f.compile (.ofNames [globalVariable] 0) = f.compile (.ofNames [globalVariable, "b"] 0) ↔
        ¬ ∃ p, f.elaborate (.ofNames [globalVariable] 0) = .ok p) := by
  constructor
  · refine ⟨_, rfl, by decide, by decide, by decide, by decide, ?_⟩
    exact (named_references_are_independent (by decide) (by decide) (by decide)).1 (by decide)
  · refine ⟨_, rfl, by decide, by decide, by decide, by decide, by decide, ?_⟩
    exact (named_references_are_independent (by decide) (by decide) (by decide)).2 (by decide)
      (by decide)

/-- All that the filter refers to is the one variable of the first pattern, and still the second
variable makes a difference. -/
theorem reserved_name_depends_on_other_variables :
    ∃ f : Filter, f = .timestampCall (.selector (some globalVariable) Axis.valid.start) "before"
        [.timestamp (.literal "2020-01-01")] ∧
      .pattern ∉ f.references ∧ f.names ⊆ [globalVariable] ∧
      [globalVariable] ⊆ [globalVariable, "b"] ∧
      f.compile (.ofNames [globalVariable] 0) ≠ f.compile (.ofNames [globalVariable, "b"] 0) := by
  refine ⟨_, rfl, by decide, by decide, by decide, ?_⟩
  generalize hf : Filter.timestampCall _ _ _ = f
  have hwritten : f.names ⊆ [globalVariable] := by
    rw [← hf]
    decide
  have hsub : [globalVariable] ⊆ [globalVariable, "b"] := by decide
  have hresult : (f.elaborate (.ofNames [globalVariable] 0)).map Predicate.isGlobal = .ok true := by
    rw [← hf]
    decide +kernel
  obtain ⟨p, hp, hglobal⟩ := map_eq_ok.1 hresult
  have hp' : f.elaborate (.ofNames [globalVariable, "b"] 0) = .ok p := by
    rw [← elaborate_congr (Scope.agreeOn_ofNames hwritten hsub), hp]
  exact compile_ne_of_isGlobal hp hp' hglobal (by decide) hwritten hsub (by decide)

end Filter
end TemporalPattern
