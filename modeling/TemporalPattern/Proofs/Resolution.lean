import TemporalPattern.Proofs.Extremes
import TemporalPattern.Proofs.Formula
import TemporalPattern.Proofs.Terms

/-!
# Resolving selectors of the whole pattern

A resolved term has the value that the term has on the timeline on which the whole pattern starts at
the latest start of its variables and stops at their earliest stop.  A term without such selectors
is left as it is.  Nothing but such a selector in a pattern without variables is an error.
-/

namespace TemporalPattern

universe u

/-! ## The timeline of a pattern -/

theorem Timeline.ofPattern_congr {names names' : List String}
    (h : ∀ name, name ∈ names ↔ name ∈ names') (t : Timeline) :
    t.ofPattern names = t.ofPattern names' := by
  have hchoose (choice : Aggregate) (field : TimeField) :
      choice.choose (names.map (t · field)) = choice.choose (names'.map (t · field)) := by
    apply Aggregate.choose_congr
    intro x
    simp only [List.mem_map, h]
  ext name field
  simp only [ofPattern, hchoose]

theorem Timeline.ofPattern_global (names : List String) (t : Timeline) (field : TimeField) :
    t.ofPattern names globalVariable field = field.aggregate.choose (names.map (t · field)) := by
  rw [ofPattern, if_pos rfl, TimeField.aggregate]
  cases field.endpoint <;> rfl

theorem Timeline.ofPattern_of_ne {name : String} (h : name ≠ globalVariable)
    (names : List String) (t : Timeline) (field : TimeField) :
    t.ofPattern names name field = t name field := by
  rw [ofPattern, if_neg h]

/-! ## Terms -/

/-- The aggregate of a single term is that term, which changes nothing about the value. -/
theorem Aggregate.value_of {choice : Aggregate} {args : List TimePoint} {p : TimePoint}
    (h : choice.of args = .ok p) (t : Timeline) :
    p.value t = choice.choose (args.map (·.value t)) := by
  match args with
  | [] => simp [Aggregate.of] at h
  | [q] =>
      obtain rfl := Except.ok.inj h
      rw [List.map_singleton, choose_singleton]
  | q :: r :: args =>
      obtain rfl := Except.ok.inj h
      rw [TimePoint.value_aggregate]

namespace TimePoint

variable {names : List String}

theorem value_resolveSelector {name : String} {field : TimeField} {q : TimePoint}
    (h : resolveSelector names name field = .ok q) (t : Timeline) :
    q.value t = t.ofPattern names name field := by
  unfold resolveSelector at h
  split at h
  case isTrue hname =>
    rw [Except.ok.injEq] at h
    rw [← h, value, Timeline.ofPattern_of_ne hname]
  case isFalse hname =>
    split at h
    case isTrue => simp at h
    case isFalse =>
      rw [not_not.1 hname, Timeline.ofPattern_global, Aggregate.value_of h, List.map_map]
      rfl

theorem value_resolve {p q : TimePoint} (h : p.resolve names = .ok q) (t : Timeline) :
    q.value t = p.value (t.ofPattern names) := by
  induction p using TimePoint.induction generalizing q with
  | literal time =>
      rw [resolve, Except.ok.injEq] at h
      rw [← h, value, value]
  | selector name field =>
      rw [resolve] at h
      rw [value_resolveSelector h, value]
  | constant length =>
      rw [resolve, Except.ok.injEq] at h
      rw [← h, value, value]
  | duration start stop ihstart ihstop =>
      simp only [resolve, bind_eq_ok, pure_eq_ok] at h
      obtain ⟨start', hstart, stop', hstop, rfl⟩ := h
      rw [value, value, ihstart hstart, ihstop hstop]
  | plus point length ih =>
      simp only [resolve, bind_eq_ok, pure_eq_ok] at h
      obtain ⟨point', hpoint, rfl⟩ := h
      rw [value, value, ih hpoint]
  | aggregate choice args ih =>
      simp only [resolve, resolveEach_eq, bind_eq_ok, pure_eq_ok] at h
      obtain ⟨args', hargs, rfl⟩ := h
      rw [value_aggregate, value_aggregate]
      congr 1
      exact map_eq_of_mapM hargs fun p hp q hq => ih p hp hq

theorem resolve_of_not_isGlobal {p : TimePoint} (h : ¬ p.isGlobal) :
    p.resolve names = .ok p := by
  induction p using TimePoint.induction with
  | literal time => rfl
  | selector name field =>
      rw [isGlobal_selector] at h
      rw [resolve, resolveSelector, if_pos h]
  | constant length => rfl
  | duration start stop ihstart ihstop =>
      rw [isGlobal_duration, not_or] at h
      simp only [resolve, ihstart h.1, ihstop h.2]
      rfl
  | plus point length ih =>
      rw [isGlobal_plus] at h
      simp only [resolve, ih h]
      rfl
  | aggregate choice args ih =>
      rw [isGlobal_aggregate] at h
      have hargs : args.mapM (resolve names) = .ok args := by
        rw [mapM_eq_ok, List.forall₂_same]
        intro p hp
        exact ih p hp fun hglobal => h ⟨p, hp, hglobal⟩
      simp only [resolve, resolveEach_eq, hargs]
      rfl

/-! ### Failure -/

theorem exists_resolveSelector_iff {name : String} {field : TimeField} :
    (∃ q, resolveSelector names name field = .ok q) ↔ (names = [] → name ≠ globalVariable) := by
  unfold resolveSelector
  split
  case isTrue hname => exact iff_of_true ⟨_, rfl⟩ fun _ => hname
  case isFalse hname =>
    split
    case isTrue hnil =>
      refine iff_of_false (by simp) fun h => hname (h ?_)
      exact List.isEmpty_iff.1 hnil
    case isFalse hnil =>
      rw [Aggregate.exists_of_iff, ne_eq, List.map_eq_nil_iff]
      have hnames : names ≠ [] := fun h => hnil (List.isEmpty_iff.2 h)
      exact iff_of_true hnames fun h => absurd h hnames

theorem failsOnly_resolveSelector (names : List String) (name : String) (field : TimeField) :
    FailsOnly (· = .noPatternVariables) (resolveSelector names name field) := by
  unfold resolveSelector
  split
  case isTrue => exact failsOnly_ok _
  case isFalse =>
    split
    case isTrue => exact failsOnly_error rfl
    case isFalse hnil =>
      have hargs : names.map (selector · field) ≠ [] := by simpa using hnil
      have hresult : ∃ q, field.aggregate.of (names.map (selector · field)) = .ok q :=
        Aggregate.exists_of_iff.2 hargs
      obtain ⟨q, hq⟩ := hresult
      rw [hq]
      exact failsOnly_ok q

theorem exists_resolve_iff {p : TimePoint} :
    (∃ q, p.resolve names = .ok q) ↔ (names = [] → ¬ p.isGlobal) := by
  induction p using TimePoint.induction with
  | literal time => exact iff_of_true ⟨_, rfl⟩ fun _ => by simp [isGlobal, selectors]
  | constant length => exact iff_of_true ⟨_, rfl⟩ fun _ => by simp [isGlobal, selectors]
  | selector name field => rw [resolve, exists_resolveSelector_iff, isGlobal_selector]
  | duration start stop ihstart ihstop =>
      simp only [resolve, exists_bind_eq_ok, pure_eq_ok, exists_eq', and_true, exists_and_right,
        ihstart, ihstop, isGlobal_duration, not_or, imp_and]
  | plus point length ih =>
      simp only [resolve, exists_bind_eq_ok, pure_eq_ok, exists_eq', and_true, ih, isGlobal_plus]
  | aggregate choice args ih =>
      simp only [resolve, resolveEach_eq, exists_bind_eq_ok, pure_eq_ok, exists_eq', and_true,
        exists_mapM_eq_ok, isGlobal_aggregate, not_exists, not_and]
      constructor
      · intro h hnil p hp
        exact (ih p hp).1 (h p hp) hnil
      · intro h p hp
        exact (ih p hp).2 fun hnil => h hnil p hp

theorem failsOnly_resolve (names : List String) (p : TimePoint) :
    FailsOnly (· = .noPatternVariables) (p.resolve names) := by
  induction p using TimePoint.induction with
  | literal _ | constant _ => exact failsOnly_ok _
  | selector name field => exact failsOnly_resolveSelector names name field
  | duration start stop ihstart ihstop =>
      exact ihstart.bind fun _ _ => ihstop.bind fun _ _ => failsOnly_ok _
  | plus point length ih => exact ih.bind fun _ _ => failsOnly_ok _
  | aggregate choice args ih =>
      rw [resolve, resolveEach_eq]
      exact (failsOnly_mapM ih).bind fun _ _ => failsOnly_ok _

end TimePoint

/-! ## Comparisons -/

variable {D : Type u} [LinearOrder D] {names : List String}

theorem Operand.operand_resolve {o o' : Operand} (h : o.resolve names = .ok o')
    (v : Valuation D) : v.operand o' = (v.ofPattern names).operand o := by
  cases o with
  | time p =>
      simp only [resolve, bind_eq_ok, pure_eq_ok] at h
      obtain ⟨p', hp, rfl⟩ := h
      exact congrArg v.instant (TimePoint.value_resolve hp v.timeline)
  | value _ | element _ | property _ _ =>
      obtain rfl := Except.ok.inj h
      rfl

theorem Operand.resolve_of_not_isGlobal {o : Operand} (h : ¬ o.isGlobal) :
    o.resolve names = .ok o := by
  cases o with
  | time p =>
      have hp : p.resolve names = .ok p := TimePoint.resolve_of_not_isGlobal h
      simp only [resolve, hp]
      rfl
  | value _ | element _ | property _ _ => rfl

theorem Comparison.satisfies_resolve {c c' : Comparison} (h : c.resolve names = .ok c')
    (v : Valuation D) : v.Satisfies c' ↔ (v.ofPattern names).Satisfies c := by
  simp only [resolve, bind_eq_ok, pure_eq_ok] at h
  obtain ⟨lhs, hl, rhs, hr, rfl⟩ := h
  rw [Valuation.Satisfies, Valuation.Satisfies, Operand.operand_resolve hl,
    Operand.operand_resolve hr]

theorem Comparison.resolve_of_not_isGlobal {c : Comparison} (h : ¬ c.isGlobal) :
    c.resolve names = .ok c := by
  rw [isGlobal, Bool.or_eq_true, not_or] at h
  simp only [resolve, Operand.resolve_of_not_isGlobal h.1, Operand.resolve_of_not_isGlobal h.2]
  rfl

theorem Operand.exists_resolve_iff {o : Operand} :
    (∃ o', o.resolve names = .ok o') ↔ (names = [] → ¬ o.isGlobal) := by
  cases o with
  | time p =>
      simp only [resolve, exists_bind_eq_ok, pure_eq_ok, exists_eq', and_true,
        TimePoint.exists_resolve_iff, isGlobal]
  | value _ | element _ | property _ _ =>
      exact iff_of_true ⟨_, rfl⟩ fun _ => Bool.false_ne_true

theorem Operand.failsOnly_resolve (names : List String) (o : Operand) :
    FailsOnly (· = .noPatternVariables) (o.resolve names) := by
  cases o with
  | time p => exact (p.failsOnly_resolve names).bind fun _ _ => failsOnly_ok _
  | value _ | element _ | property _ _ => exact failsOnly_ok _

theorem Comparison.exists_resolve_iff {c : Comparison} :
    (∃ c', c.resolve names = .ok c') ↔ (names = [] → ¬ c.isGlobal) := by
  simp only [resolve, exists_bind_eq_ok, pure_eq_ok, exists_eq', and_true, exists_and_right,
    Operand.exists_resolve_iff, isGlobal, Bool.or_eq_true, not_or, imp_and]

theorem Comparison.failsOnly_resolve (names : List String) (c : Comparison) :
    FailsOnly (· = .noPatternVariables) (c.resolve names) := by
  refine (c.lhs.failsOnly_resolve names).bind fun _ _ => ?_
  exact (c.rhs.failsOnly_resolve names).bind fun _ _ => failsOnly_ok _

/-! ## Predicates -/

namespace Predicate

theorem exists_resolve_iff {p : Predicate} :
    (∃ q, p.resolve names = .ok q) ↔ (names = [] → ¬ p.isGlobal) := by
  simp only [resolve, Formula.exists_substitute_iff, exists_bind_eq_ok, pure_eq_ok, exists_eq',
    and_true, Comparison.exists_resolve_iff, isGlobal, List.any_eq_true, not_exists, not_and]
  exact ⟨fun h hnil c hc => h c hc hnil, fun h c hc hnil => h hnil c hc⟩

theorem failsOnly_resolve (names : List String) (p : Predicate) :
    FailsOnly (· = .noPatternVariables) (p.resolve names) :=
  Formula.failsOnly_substitute fun c _ =>
    (c.failsOnly_resolve names).bind fun _ _ => failsOnly_ok _

theorem exists_resolve_eq_error_iff {p : Predicate} :
    (∃ e, p.resolve names = .error e) ↔ names = [] ∧ p.isGlobal := by
  rw [exists_eq_error_iff, exists_resolve_iff, Classical.not_imp, not_not]

theorem holds_resolve {p q : Predicate} (h : p.resolve names = .ok q) (v : Valuation D) :
    q.Holds v.Satisfies ↔ p.Holds (v.ofPattern names).Satisfies := by
  apply Formula.holds_substitute h
  intro c _ r hr
  simp only [bind_eq_ok, pure_eq_ok] at hr
  obtain ⟨c', hc, rfl⟩ := hr
  exact Comparison.satisfies_resolve hc v

theorem resolve_of_not_isGlobal {p : Predicate} (h : ¬ p.isGlobal) : p.resolve names = .ok p := by
  apply Formula.substitute_atom
  intro c hc
  have hlocal : ¬ c.isGlobal := fun hglobal => h (List.any_eq_true.2 ⟨c, hc, hglobal⟩)
  rw [Comparison.resolve_of_not_isGlobal hlocal]
  rfl

end Predicate
end TemporalPattern
