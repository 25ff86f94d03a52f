import TemporalPattern.Filter.Reference
import TemporalPattern.Proofs.Normalizing

/-!
# References through normalization

Resolving replaces a reference to the whole pattern by references to its variables and keeps all
others, and unfolding keeps every one of them.  Which variables a predicate has and whether it is
about the whole pattern can be read off its references.
-/

namespace TemporalPattern

variable {names : List String}

/-! ## References of a predicate -/

namespace Reference

/-- What becomes of a reference in a pattern with the given variables. -/
def resolved (names : List String) : Reference → List Reference
  | pattern => names.map ofSelector
  | r => [r]

theorem ofSelector_of_ne {name : String} (h : name ≠ globalVariable) :
    ofSelector name = time name := by
  rw [ofSelector, if_neg h]

theorem ofSelector_eq_pattern {name : String} :
    ofSelector name = pattern ↔ name = globalVariable := by
  unfold ofSelector
  split <;> simp_all

theorem name?_ofSelector {name name' : String} :
    (ofSelector name).name? = some name' ↔ name = name' ∧ name ≠ globalVariable := by
  unfold ofSelector
  split <;> simp_all [name?]

theorem mem_resolved_of_ne {r : Reference} (h : r ≠ pattern) : r ∈ resolved names r := by
  cases r with
  | element name | time name => exact List.mem_singleton_self _
  | pattern => exact absurd rfl h

end Reference

namespace TimePoint

@[simp] theorem references_literal (time : Millis) : (literal time).references = [] :=
  rfl

@[simp] theorem references_constant (length : Millis) : (constant length).references = [] :=
  rfl

@[simp] theorem references_selector (name : String) (field : TimeField) :
    (selector name field).references = [.ofSelector name] :=
  rfl

@[simp] theorem references_duration (start stop : TimePoint) :
    (duration start stop).references = start.references ++ stop.references := by
  simp [references, selectors]

@[simp] theorem references_plus (point : TimePoint) (length : Millis) :
    (plus point length).references = point.references :=
  rfl

@[simp] theorem references_aggregate (choice : Aggregate) (args : List TimePoint) :
    (aggregate choice args).references = args.flatMap references := by
  simp only [references, selectors, selectorsEach_eq, List.map_flatMap]
  rfl

theorem isGlobal_iff {p : TimePoint} : p.isGlobal ↔ .pattern ∈ p.references := by
  simp [isGlobal, references, Reference.ofSelector_eq_pattern]

theorem mem_mentions {p : TimePoint} {name : String} :
    name ∈ p.mentions ↔ ∃ r ∈ p.references, r.name? = some name := by
  simp [mentions, references, Reference.name?_ofSelector]

end TimePoint

theorem Aggregate.references_of {choice : Aggregate} {args : List TimePoint} {p : TimePoint}
    (h : choice.of args = .ok p) : p.references = args.flatMap TimePoint.references := by
  match args with
  | [] => simp [Aggregate.of] at h
  | [q] =>
      obtain rfl := Except.ok.inj h
      exact (List.flatMap_singleton _ _).symm
  | q :: r :: args =>
      obtain rfl := Except.ok.inj h
      exact TimePoint.references_aggregate choice _

theorem Operand.isGlobal_iff {o : Operand} : o.isGlobal ↔ .pattern ∈ o.references := by
  cases o with
  | time p => exact TimePoint.isGlobal_iff
  | value _ | element _ | property _ _ => simp [isGlobal, references]

theorem Operand.mem_mentions {o : Operand} {name : String} :
    name ∈ o.mentions ↔ ∃ r ∈ o.references, r.name? = some name := by
  cases o with
  | time p => exact TimePoint.mem_mentions
  | value _ | element _ | property _ _ => simp [mentions, references, Reference.name?, eq_comm]

theorem Comparison.mem_references {c : Comparison} {r : Reference} :
    r ∈ c.references ↔ r ∈ c.lhs.references ∨ r ∈ c.rhs.references :=
  List.mem_append

theorem Comparison.isGlobal_iff {c : Comparison} : c.isGlobal ↔ .pattern ∈ c.references := by
  rw [isGlobal, Bool.or_eq_true, Operand.isGlobal_iff, Operand.isGlobal_iff, mem_references]

theorem Comparison.mem_mentions {c : Comparison} {name : String} :
    name ∈ c.mentions ↔ ∃ r ∈ c.references, r.name? = some name := by
  simp only [mentions, List.mem_append, Operand.mem_mentions, mem_references, or_and_right,
    exists_or]

namespace Predicate

variable {p q : Predicate} {r : Reference} {name : String}

theorem mem_references : r ∈ references p ↔ ∃ c ∈ p.atoms, r ∈ c.references :=
  List.mem_flatMap

theorem isGlobal_iff : isGlobal p ↔ .pattern ∈ references p := by
  simp only [isGlobal, List.any_eq_true, Comparison.isGlobal_iff, mem_references]

theorem mem_variableNames_iff :
    name ∈ variableNames p ↔ ∃ r ∈ references p, r.name? = some name := by
  rw [mem_variableNames]
  simp only [Comparison.mem_mentions, mem_references]
  constructor
  · rintro ⟨c, hc, r, hr, hname⟩
    exact ⟨r, ⟨c, hc, hr⟩, hname⟩
  · rintro ⟨r, ⟨c, hc, hr⟩, hname⟩
    exact ⟨c, hc, r, hr, hname⟩

end Predicate

/-! ## Resolving -/

theorem TimePoint.references_resolveSelector {name : String} {field : TimeField} {q : TimePoint}
    (h : resolveSelector names name field = .ok q) :
    q.references = Reference.resolved names (.ofSelector name) := by
  unfold resolveSelector at h
  split at h
  case isTrue hname =>
    obtain rfl := Except.ok.inj h
    rw [references_selector, Reference.ofSelector_of_ne hname]
    rfl
  case isFalse hname =>
    split at h
    case isTrue => simp at h
    case isFalse =>
      rw [Aggregate.references_of h, Reference.ofSelector_eq_pattern.2 (not_not.1 hname),
        Reference.resolved, List.flatMap_map]
      exact List.flatMap_pure_eq_map _ _

theorem TimePoint.references_resolve {p q : TimePoint} (h : p.resolve names = .ok q) :
    q.references = p.references.flatMap (Reference.resolved names) := by
  induction p using TimePoint.induction generalizing q with
  | literal _ | constant _ =>
      obtain rfl := Except.ok.inj h
      rfl
  | selector name field =>
      rw [resolve] at h
      rw [references_resolveSelector h, references_selector, List.flatMap_singleton]
  | duration start stop ihstart ihstop =>
      simp only [resolve, bind_eq_ok, pure_eq_ok] at h
      obtain ⟨start', hstart, stop', hstop, rfl⟩ := h
      rw [references_duration, references_duration, List.flatMap_append, ihstart hstart,
        ihstop hstop]
  | plus point length ih =>
      simp only [resolve, bind_eq_ok, pure_eq_ok] at h
      obtain ⟨point', hpoint, rfl⟩ := h
      rw [references_plus, references_plus, ih hpoint]
  | aggregate choice args ih =>
      simp only [resolve, resolveEach_eq, bind_eq_ok, pure_eq_ok] at h
      obtain ⟨args', hargs, rfl⟩ := h
      rw [references_aggregate, references_aggregate, List.flatMap_assoc]
      exact flatMap_eq_of_mapM hargs fun p hp q hq => ih p hp hq

theorem Operand.references_resolve {o o' : Operand} (h : o.resolve names = .ok o') :
    o'.references = o.references.flatMap (Reference.resolved names) := by
  cases o with
  | time p =>
      simp only [resolve, bind_eq_ok, pure_eq_ok] at h
      obtain ⟨p', hp, rfl⟩ := h
      exact TimePoint.references_resolve hp
  | value _ | element _ | property _ _ =>
      obtain rfl := Except.ok.inj h
      rfl

theorem Operand.isTemporal_resolve {o o' : Operand} (h : o.resolve names = .ok o') :
    o'.isTemporal = o.isTemporal := by
  cases o with
  | time p =>
      simp only [resolve, bind_eq_ok, pure_eq_ok] at h
      obtain ⟨p', -, rfl⟩ := h
      rfl
  | value _ | element _ | property _ _ =>
      obtain rfl := Except.ok.inj h
      rfl

theorem Comparison.references_resolve {c c' : Comparison} (h : c.resolve names = .ok c') :
    c'.references = c.references.flatMap (Reference.resolved names) := by
  simp only [resolve, bind_eq_ok, pure_eq_ok] at h
  obtain ⟨lhs, hl, rhs, hr, rfl⟩ := h
  rw [references, references, List.flatMap_append, Operand.references_resolve hl,
    Operand.references_resolve hr]

theorem Comparison.isTemporal_resolve {c c' : Comparison} (h : c.resolve names = .ok c') :
    c'.isTemporal = c.isTemporal := by
  simp only [resolve, bind_eq_ok, pure_eq_ok] at h
  obtain ⟨lhs, hl, rhs, hr, rfl⟩ := h
  rw [isTemporal, isTemporal, Operand.isTemporal_resolve hl, Operand.isTemporal_resolve hr]

namespace Predicate

variable {p q : Predicate} {r : Reference} {name : String}

theorem references_resolve (h : resolve names p = .ok q) :
    references q = (references p).flatMap (Reference.resolved names) := by
  rw [references, references, List.flatMap_assoc]
  apply Formula.flatMap_atoms_substitute h
  intro c _ f hf
  simp only [bind_eq_ok, pure_eq_ok] at hf
  obtain ⟨c', hc, rfl⟩ := hf
  rw [Formula.atoms, List.flatMap_singleton, Comparison.references_resolve hc]

theorem not_isGlobal_resolve (hnames : globalVariable ∉ names) (h : resolve names p = .ok q) :
    ¬ isGlobal q := by
  rw [isGlobal_iff, references_resolve h, List.mem_flatMap]
  rintro ⟨r, -, hr⟩
  cases r with
  | element name | time name => simp [Reference.resolved] at hr
  | pattern =>
      obtain ⟨name, hname, hpattern⟩ := List.mem_map.1 hr
      rw [Reference.ofSelector_eq_pattern] at hpattern
      exact hnames (hpattern ▸ hname)

theorem isTemporal_resolve (h : resolve names p = .ok q) : isTemporal q ↔ isTemporal p := by
  simp only [isTemporal, List.any_eq_true]
  apply Formula.exists_mem_atoms_substitute_iff h
  intro c _ f hf
  simp only [bind_eq_ok, pure_eq_ok] at hf
  obtain ⟨c', hc, rfl⟩ := hf
  simp only [Formula.atoms, List.mem_singleton, exists_eq_left, Comparison.isTemporal_resolve hc]

end Predicate

/-! ## Unfolding -/

theorem Comparison.distributes_references (r : Reference) :
    Distributes fun operand => r ∈ operand.references := by
  intro choice args _
  simp only [Operand.references, TimePoint.references_aggregate, List.mem_flatMap]

/-- The arguments of an aggregate are time points as well. -/
theorem Comparison.distributes_isTemporal : Distributes fun operand => operand.isTemporal := by
  intro choice args hargs
  obtain ⟨p, hp⟩ := List.exists_mem_of_ne_nil args hargs
  exact iff_of_true rfl ⟨p, hp, rfl⟩

namespace Predicate

variable {p q : Predicate} {r : Reference} {name : String}

theorem mem_references_unfoldAggregates (h : unfoldAggregates p = .ok q) :
    r ∈ references q ↔ r ∈ references p := by
  simp only [mem_references, Comparison.mem_references]
  exact Formula.exists_mem_atoms_substitute_iff h fun _ _ _ hf =>
    Comparison.exists_operand_unfoldAggregates_iff (Comparison.distributes_references r) hf

theorem isTemporal_unfoldAggregates (h : unfoldAggregates p = .ok q) :
    isTemporal q ↔ isTemporal p := by
  simp only [isTemporal, List.any_eq_true, Comparison.isTemporal, Bool.or_eq_true]
  exact Formula.exists_mem_atoms_substitute_iff h fun _ _ _ hf =>
    Comparison.exists_operand_unfoldAggregates_iff Comparison.distributes_isTemporal hf

/-! ## Both steps -/

theorem mem_references_normalize (h : normalize names p = .ok q) :
    r ∈ references q ↔ ∃ r' ∈ references p, r ∈ Reference.resolved names r' := by
  rw [normalize_eq, bind_eq_ok] at h
  obtain ⟨p', hp', hq⟩ := h
  rw [mem_references_unfoldAggregates hq, references_resolve hp', List.mem_flatMap]

theorem isTemporal_normalize (h : normalize names p = .ok q) : isTemporal q ↔ isTemporal p := by
  rw [normalize_eq, bind_eq_ok] at h
  obtain ⟨p', hp', hq⟩ := h
  rw [isTemporal_unfoldAggregates hq, isTemporal_resolve hp']

theorem not_isGlobal_normalize (hnames : globalVariable ∉ names)
    (h : normalize names p = .ok q) : ¬ isGlobal q := by
  rw [normalize_eq, bind_eq_ok] at h
  obtain ⟨p', hp', hq⟩ := h
  rw [isGlobal_iff, mem_references_unfoldAggregates hq, ← isGlobal_iff]
  exact not_isGlobal_resolve hnames hp'

/-- The variables of the pattern come in where it is referred to as a whole. -/
theorem mem_variableNames_normalize (h : normalize names p = .ok q) :
    name ∈ variableNames q ↔
      name ∈ variableNames p ∨ (isGlobal p ∧ name ∈ names ∧ name ≠ globalVariable) := by
  simp only [mem_variableNames_iff, mem_references_normalize h, isGlobal_iff]
  constructor
  · rintro ⟨r, ⟨r', hr', hr⟩, hname⟩
    cases r' with
    | element _ | time _ =>
        obtain rfl := List.mem_singleton.1 hr
        exact .inl ⟨_, hr', hname⟩
    | pattern =>
        obtain ⟨name', hname', rfl⟩ := List.mem_map.1 hr
        obtain ⟨rfl, hne⟩ := Reference.name?_ofSelector.1 hname
        exact .inr ⟨hr', hname', hne⟩
  · rintro (⟨r, hr, hname⟩ | ⟨hpattern, hname, hne⟩)
    · have hr' : r ≠ .pattern := by
        rintro rfl
        simp [Reference.name?] at hname
      exact ⟨r, ⟨r, hr, Reference.mem_resolved_of_ne hr'⟩, hname⟩
    · refine ⟨.time name, ⟨.pattern, hpattern, ?_⟩, rfl⟩
      rw [← Reference.ofSelector_of_ne hne]
      exact List.mem_map_of_mem hname

end Predicate
end TemporalPattern
