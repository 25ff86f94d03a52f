import TemporalPattern.Proofs.Elaboration

/-!
# Compiling what has been elaborated

Ordinary terms have no aggregates without arguments, so whatever consists of them can be unfolded.
What a filter elaborates to is ordinary and stays so when it is resolved; hence resolving is the
only step after elaboration that can fail, and it needs a variable for the whole pattern.
-/

namespace TemporalPattern

universe u

/-! ## Ordinary comparisons can be unfolded -/

variable {good : Millis → Prop}

theorem TimePoint.not_reachesEmpty_of_isInstant {p : TimePoint} (hp : p.IsInstant good) :
    ¬ p.ReachesEmpty := by
  induction hp with
  | literal _ | selector _ _ => exact nofun
  | aggregate choice hne _ ih =>
      intro hreach
      cases hreach with
      | empty => exact hne rfl
      | through hmem hreach => exact ih _ hmem hreach

theorem TimePoint.not_reachesEmpty_of_isOrdinary {p : TimePoint} (hp : p.IsOrdinary good) :
    ¬ p.ReachesEmpty := by
  cases hp with
  | instant hp => exact not_reachesEmpty_of_isInstant hp
  | constant length => exact nofun
  | duration hstart hstop => exact nofun

theorem Operand.not_reachesEmpty_of_isOrdinary {o : Operand} (ho : o.IsOrdinary good) :
    ¬ o.ReachesEmpty := by
  cases o with
  | time p => exact TimePoint.not_reachesEmpty_of_isOrdinary ho
  | value _ | element _ | property _ _ => exact not_reachesEmpty rfl

namespace Predicate

variable {p : Predicate} {names : List String}

theorem not_reachesEmpty_of_isOrdinary (hp : p.IsOrdinary good) : ¬ p.ReachesEmpty := by
  rintro ⟨c, hc, hl | hr⟩
  · exact Operand.not_reachesEmpty_of_isOrdinary (hp c hc).lhs hl
  · exact Operand.not_reachesEmpty_of_isOrdinary (hp c hc).rhs hr

theorem exists_unfoldAggregates_of_isOrdinary (hp : p.IsOrdinary good) :
    ∃ q, unfoldAggregates p = .ok q := by
  have hno : ¬ p.ReachesEmpty := not_reachesEmpty_of_isOrdinary hp
  obtain ⟨q, hq, -⟩ := unfoldAggregates_of_not_reachesEmpty.{0} hno
  exact ⟨q, hq⟩

theorem exists_normalize_of_isOrdinary (hp : p.IsOrdinary good)
    (hnames : names = [] → ¬ p.isGlobal) : ∃ q, normalize names p = .ok q := by
  rw [normalize_eq, exists_bind_eq_ok]
  obtain ⟨r, hr⟩ := exists_resolve_iff.2 hnames
  have hresolved : IsOrdinary good r := isOrdinary_of_resolve hp hr
  exact ⟨r, hr, exists_unfoldAggregates_of_isOrdinary hresolved⟩

/-- Of the two steps only the first can fail. -/
theorem normalize_eq_error_iff (hp : p.IsOrdinary good) {e : Error} :
    normalize names p = .error e ↔ resolve names p = .error e := by
  rw [normalize_eq, bind_eq_error]
  constructor
  · rintro (h | ⟨r, hr, hunfold⟩)
    · exact h
    · have hresolved : IsOrdinary good r := isOrdinary_of_resolve hp hr
      obtain ⟨q, hq⟩ := exists_unfoldAggregates_of_isOrdinary hresolved
      simp [hq] at hunfold
  · exact .inl

end Predicate

/-! ## Filters -/

namespace Filter

theorem compile_eq_error_iff {s : Scope} {f : Filter} {p : Predicate} (h : f.elaborate s = .ok p)
    {e : Error} : f.compile s = .error e ↔ Predicate.resolve s.names p = .error e := by
  have hp : p.IsOrdinary fun _ => True := isOrdinary_of_elaborate (fun _ _ _ => trivial) h
  have hcompile : f.compile s = Predicate.normalize s.names p >>= fun q => .ok q.toCnf := by
    rw [compile, h]
    rfl
  rw [← Predicate.normalize_eq_error_iff hp, hcompile, bind_eq_error]
  simp

/-- An elaborated filter that cannot be compiled refers to the whole pattern where the pattern has
no variables, and that is the reported reason.  Neither resolving its predicate in any pattern nor
unfolding what comes of that has any other error. -/
theorem compile_fails_only_without_variables {names : List String} {now : Millis} {f : Filter}
    {p : Predicate} (h : f.elaborate (.ofNames names now) = .ok p) :
    ((∃ e, f.compile (.ofNames names now) = .error e) ↔ names = [] ∧ Predicate.isGlobal p) ∧
      (∀ e, f.compile (.ofNames names now) = .error e → e = .noPatternVariables) ∧
      (∀ names' e, Predicate.resolve names' p = .error e → e = .noPatternVariables) ∧
      (∃ q, Predicate.unfoldAggregates p = .ok q) ∧
      ∀ names' r, Predicate.resolve names' p = .ok r →
        ∃ q, Predicate.unfoldAggregates r = .ok q := by
  have hp : p.IsOrdinary fun _ => True := isOrdinary_of_elaborate (fun _ _ _ => trivial) h
  have hnames : (Scope.ofNames names now).names = [] ↔ names = [] := by
    cases names with
    | nil => exact iff_of_true rfl rfl
    | cons name names => simp [Scope.ofNames, List.eraseDups_cons]
  refine ⟨?_, ?_, fun names' => p.failsOnly_resolve names', ?_, ?_⟩
  · simp only [compile_eq_error_iff h, Predicate.exists_resolve_eq_error_iff, hnames]
  · intro e he
    exact p.failsOnly_resolve _ e ((compile_eq_error_iff h).1 he)
  · exact Predicate.exists_unfoldAggregates_of_isOrdinary hp
  · intro names' r hr
    have hresolved : r.IsOrdinary fun _ => True := Predicate.isOrdinary_of_resolve hp hr
    exact Predicate.exists_unfoldAggregates_of_isOrdinary hresolved

/-- The length of an interval that is built from times of the whole pattern, in a pattern without
variables and in one with two. -/
theorem compile_fails_only_without_variables_of_nested_selectors :
    ∃ f : Filter, f = .intervalCall
        (.join (.merge (.selector none .valid) (.selector none .transaction))
          (.literal (.aggregate .max [.selector none Axis.valid.start,
              .aggregate .min [.literal "2020-01-01", .literal "now"]]) (.literal "now")))
        "longerThan" [.interval (.selector none .valid)] ∧
      (∃ p, f.elaborate (.ofNames [] 0) = .ok p ∧ Predicate.isGlobal p ∧
        f.compile (.ofNames [] 0) = .error .noPatternVariables) ∧
      ∃ p, f.elaborate (.ofNames ["a", "b"] 0) = .ok p ∧
        ∃ n, f.compile (.ofNames ["a", "b"] 0) = .ok n := by
  refine ⟨_, rfl, ?_⟩
  generalize hf : Filter.intervalCall _ _ _ = f
  have hnone : (f.elaborate (.ofNames [] 0)).map Predicate.isGlobal = .ok true := by
    rw [← hf]
    decide +kernel
  have htwo : (f.elaborate (.ofNames ["a", "b"] 0)).map Predicate.isGlobal = .ok true := by
    rw [← hf]
    decide +kernel
  obtain ⟨p, hp, hglobal⟩ := map_eq_ok.1 hnone
  obtain ⟨p', hp', -⟩ := map_eq_ok.1 htwo
  obtain ⟨hfails, hreason, -⟩ := compile_fails_only_without_variables hp
  obtain ⟨e, he⟩ := hfails.2 ⟨rfl, hglobal⟩
  obtain rfl := hreason e he
  have hcompiles : ¬ ∃ e, f.compile (.ofNames ["a", "b"] 0) = .error e := by
    rw [(compile_fails_only_without_variables hp').1]
    simp
  rw [exists_eq_error_iff, not_not] at hcompiles
  exact ⟨⟨p, hp, hglobal, he⟩, p', hp', hcompiles⟩

end Filter
end TemporalPattern
