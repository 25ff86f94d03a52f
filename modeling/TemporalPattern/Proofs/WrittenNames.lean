import TemporalPattern.Proofs.Acceptance

/-!
# Names written in a filter

Elaboration asks of a scope what time it is and whether it declares the names that are written, and
nothing else.  All names in an accepted filter are declared, so more declarations do not change what
it elaborates to, and a name that elaboration misses is one that is written and not declared.
-/

namespace TemporalPattern

variable {s s' : Scope} {names written written' : List String}

/-! ## Scopes that agree on names -/

/-- Two scopes at the same instant, of which both or none declare each of the given names. -/
structure Scope.AgreeOn (written : List String) (s s' : Scope) : Prop where
  now : s.now = s'.now
  declared : ∀ name ∈ written, name ∈ s.names ↔ name ∈ s'.names

theorem Scope.AgreeOn.mono (h : AgreeOn written' s s') (hsub : written ⊆ written') :
    AgreeOn written s s' where
  now := h.now
  declared name hname := h.declared name (hsub hname)

theorem Scope.AgreeOn.left (h : AgreeOn (written ++ written') s s') : AgreeOn written s s' :=
  h.mono (List.subset_append_left _ _)

theorem Scope.AgreeOn.right (h : AgreeOn (written ++ written') s s') : AgreeOn written' s s' :=
  h.mono (List.subset_append_right _ _)

theorem Scope.AgreeOn.of_mem {α : Type} {names : α → List String} {as : List α}
    (h : AgreeOn (as.flatMap names) s s') {a : α} (ha : a ∈ as) : AgreeOn (names a) s s' :=
  h.mono fun _ hname => List.mem_flatMap.2 ⟨a, ha, hname⟩

theorem Scope.lookup_congr {name : String} (h : AgreeOn [name] s s') :
    s.lookup name = s'.lookup name := by
  simp only [lookup, h.declared name (List.mem_singleton_self name)]

theorem Scope.target_congr {name? : Option String} (h : AgreeOn name?.toList s s') :
    s.target name? = s'.target name? := by
  cases name? with
  | none => rfl
  | some name => exact lookup_congr h

theorem Scope.mapM_lookup_congr {name? : Option String} (h : AgreeOn name?.toList s s') :
    name?.mapM s.lookup = name?.mapM s'.lookup := by
  cases name? with
  | none => rfl
  | some name => simp only [Option.mapM_some, lookup_congr h]

theorem TimeTerm.elaborate_congr {t : TimeTerm} (h : Scope.AgreeOn t.names s s') :
    t.elaborate s = t.elaborate s' := by
  induction t using TimeTerm.induction with
  | literal text => rw [elaborate, elaborate, h.now]
  | selector name? field => rw [elaborate, elaborate, Scope.target_congr h]
  | aggregate choice args ih =>
      rw [names, namesEach_eq] at h
      rw [elaborate, elaborate, elaborateEach_eq, elaborateEach_eq,
        mapM_congr fun t ht => ih t ht (h.of_mem ht)]

theorem IntervalTerm.elaborate_congr {i : IntervalTerm} (h : Scope.AgreeOn i.names s s') :
    i.elaborate s = i.elaborate s' := by
  induction i with
  | selector name? axis => rw [elaborate, elaborate, Scope.target_congr h]
  | literal start stop =>
      rw [elaborate, elaborate, start.elaborate_congr h.left, stop.elaborate_congr h.right]
  | merge i j ihi ihj | join i j ihi ihj =>
      rw [elaborate, elaborate, ihi h.left, ihj h.right]

theorem ArgumentTerm.elaborate_congr {t : ArgumentTerm} (h : Scope.AgreeOn t.names s s') :
    t.elaborate s = t.elaborate s' := by
  cases t with
  | interval i => rw [elaborate, elaborate, i.elaborate_congr h]
  | timestamp t => rw [elaborate, elaborate, t.elaborate_congr h]
  | length l => rfl

theorem OperandTerm.elaborate_congr {t : OperandTerm} (h : Scope.AgreeOn t.names s s') :
    t.elaborate s = t.elaborate s' := by
  cases t with
  | value v => rfl
  | element name | property name key => rw [elaborate, elaborate, Scope.lookup_congr h]
  | timestamp t => rw [elaborate, elaborate, t.elaborate_congr h]

theorem Filter.elaborate_congr {f : Filter} (h : Scope.AgreeOn f.names s s') :
    f.elaborate s = f.elaborate s' := by
  induction f with
  | and f g ihf ihg | or f g ihf ihg | xor f g ihf ihg =>
      rw [elaborate, elaborate, ihf h.left, ihg h.right]
  | not f ih => rw [elaborate, elaborate, ih h]
  | comparison lhs op rhs =>
      rw [elaborate, elaborate, lhs.elaborate_congr h.left, rhs.elaborate_congr h.right]
  | intervalCall caller function args | timestampCall caller function args =>
      rw [elaborate, elaborate, caller.elaborate_congr h.left,
        mapM_congr fun arg harg => arg.elaborate_congr (h.right.of_mem harg)]
  | asOf name? time =>
      rw [elaborate, elaborate, Scope.mapM_lookup_congr h.left, time.elaborate_congr h.right]

/-! ## Names of accepted terms -/

theorem TimeTerm.names_subset_of_accepted {t : TimeTerm} (h : t.Accepted names) :
    t.names ⊆ names := by
  induction t using TimeTerm.induction with
  | literal text => exact List.nil_subset _
  | selector name? field => exact fun name hname => h name (Option.mem_toList.1 hname)
  | aggregate choice args ih =>
      intro name hname
      rw [TimeTerm.names, namesEach_eq] at hname
      obtain ⟨t, ht, hname⟩ := List.mem_flatMap.1 hname
      exact ih t ht (acceptedEach_iff.1 h.2 t ht) hname

theorem IntervalTerm.names_subset_of_accepted {i : IntervalTerm} (h : i.Accepted names) :
    i.names ⊆ names := by
  induction i with
  | selector name? axis => exact fun name hname => h name (Option.mem_toList.1 hname)
  | literal start stop =>
      exact List.append_subset.2 ⟨start.names_subset_of_accepted h.1,
        stop.names_subset_of_accepted h.2⟩
  | merge i j ihi ihj | join i j ihi ihj => exact List.append_subset.2 ⟨ihi h.1, ihj h.2⟩

theorem ArgumentTerm.names_subset_of_accepted {t : ArgumentTerm} (h : t.Accepted names) :
    t.names ⊆ names := by
  cases t with
  | interval i => exact i.names_subset_of_accepted h
  | timestamp t => exact t.names_subset_of_accepted h
  | length l => exact List.nil_subset _

theorem OperandTerm.names_subset_of_accepted {t : OperandTerm} (h : t.Accepted names) :
    t.names ⊆ names := by
  cases t with
  | value v => exact List.nil_subset _
  | element name | property name key => exact List.cons_subset.2 ⟨h, List.nil_subset _⟩
  | timestamp t => exact t.names_subset_of_accepted h

theorem Filter.names_subset_of_accepted {f : Filter} (h : f.Accepted names) :
    f.names ⊆ names := by
  induction f with
  | and f g ihf ihg | or f g ihf ihg | xor f g ihf ihg =>
      exact List.append_subset.2 ⟨ihf h.1, ihg h.2⟩
  | not f ih => exact ih h
  | comparison lhs op rhs =>
      exact List.append_subset.2 ⟨lhs.names_subset_of_accepted h.1,
        rhs.names_subset_of_accepted h.2.2⟩
  | intervalCall caller function args | timestampCall caller function args =>
      obtain ⟨-, hcaller, hargs⟩ := h
      refine List.append_subset.2 ⟨caller.names_subset_of_accepted hcaller, ?_⟩
      intro name hname
      obtain ⟨arg, harg, hname⟩ := List.mem_flatMap.1 hname
      exact arg.names_subset_of_accepted (hargs arg harg) hname
  | asOf name? time =>
      refine List.append_subset.2 ⟨fun name hname => h.1 name (Option.mem_toList.1 hname), ?_⟩
      exact time.names_subset_of_accepted h.2

/-! ## Faults of a filter -/

/-- What elaboration can find wrong: a text, a length, an aggregate or a call, or one of the written
names, which is then not declared.  The other errors are those of resolving and of unfolding. -/
def Error.IsFault (written declared : List String) : Error → Prop
  | unresolvedVariable name => name ∈ written ∧ name ∉ declared
  | time _ | unknownComparator _ | unknownFunction _ _ | invalidArguments _ _ | emptyAggregate =>
    True
  | noPatternVariables | unfoldNotSupported _ => False

section

variable {α : Type} {declared : List String}

/-- Where more names are written, no less can be wrong. -/
theorem FailsOnly.weaken {x : Except Error α} (h : FailsOnly (Error.IsFault written declared) x)
    (hsub : written ⊆ written') : FailsOnly (Error.IsFault written' declared) x := by
  refine h.mono fun e he => ?_
  cases e with
  | unresolvedVariable name => exact ⟨hsub he.1, he.2⟩
  | _ => exact he

theorem FailsOnly.left {x : Except Error α} (h : FailsOnly (Error.IsFault written declared) x) :
    FailsOnly (Error.IsFault (written ++ written') declared) x :=
  h.weaken (List.subset_append_left _ _)

theorem FailsOnly.right {x : Except Error α} (h : FailsOnly (Error.IsFault written' declared) x) :
    FailsOnly (Error.IsFault (written ++ written') declared) x :=
  h.weaken (List.subset_append_right _ _)

/-- What is wrong with a list is wrong with one of its members. -/
theorem failsOnly_mapM_names {β : Type} {f : α → Except Error β} {names : α → List String}
    {as : List α} (h : ∀ a ∈ as, FailsOnly (Error.IsFault (names a) declared) (f a)) :
    FailsOnly (Error.IsFault (as.flatMap names) declared) (as.mapM f) :=
  failsOnly_mapM fun a ha => (h a ha).weaken fun _ hname => List.mem_flatMap.2 ⟨a, ha, hname⟩

theorem Error.failsOnly_ofTime (x : Except TimeError α) :
    FailsOnly (IsFault written declared) (ofTime x) := by
  cases x with
  | ok a => exact failsOnly_ok a
  | error cause => exact failsOnly_error trivial

theorem Comparator.failsOnly_parse (text : String) :
    FailsOnly (Error.IsFault written declared) (parse text) := by
  unfold parse
  split
  · exact failsOnly_ok _
  · exact failsOnly_error trivial

theorem Aggregate.failsOnly_of (choice : Aggregate) (args : List TimePoint) :
    FailsOnly (Error.IsFault written declared) (choice.of args) := by
  unfold Aggregate.of
  split
  · exact failsOnly_error trivial
  · exact failsOnly_ok _
  · exact failsOnly_ok _

theorem IntervalRelation.failsOnly_ofName (text : String) :
    FailsOnly (Error.IsFault written declared) (ofName text) := by
  unfold ofName
  split
  · exact failsOnly_ok _
  · exact failsOnly_error trivial

theorem IntervalRelation.failsOnly_apply (relation : IntervalRelation)
    (caller : Constrained Interval) (args : List Argument) :
    FailsOnly (Error.IsFault written declared) (relation.apply caller args) := by
  unfold apply
  split
  · exact failsOnly_ok _
  · exact failsOnly_error trivial

theorem TimestampRelation.failsOnly_ofName (text : String) :
    FailsOnly (Error.IsFault written declared) (ofName text) := by
  unfold ofName
  split
  · exact failsOnly_ok _
  · exact failsOnly_error trivial

theorem TimestampRelation.failsOnly_apply (relation : TimestampRelation) (caller : TimePoint)
    (args : List Argument) :
    FailsOnly (Error.IsFault written declared) (relation.apply caller args) := by
  unfold apply
  split
  · exact failsOnly_ok _
  · exact failsOnly_error trivial

end

theorem Scope.failsOnly_lookup (s : Scope) (name : String) :
    FailsOnly (Error.IsFault [name] s.names) (s.lookup name) := by
  unfold lookup
  split
  case isTrue => exact failsOnly_ok _
  case isFalse h => exact failsOnly_error ⟨List.mem_singleton_self name, h⟩

theorem Scope.failsOnly_target (s : Scope) (name? : Option String) :
    FailsOnly (Error.IsFault name?.toList s.names) (s.target name?) := by
  cases name? with
  | none => exact failsOnly_ok _
  | some name => exact s.failsOnly_lookup name

theorem Scope.failsOnly_mapM_lookup (s : Scope) (name? : Option String) :
    FailsOnly (Error.IsFault name?.toList s.names) (name?.mapM s.lookup) := by
  cases name? with
  | none => exact failsOnly_ok _
  | some name => exact (s.failsOnly_lookup name).bind fun _ _ => failsOnly_ok _

theorem TimeTerm.failsOnly_elaborate (s : Scope) (t : TimeTerm) :
    FailsOnly (Error.IsFault t.names s.names) (t.elaborate s) := by
  induction t using TimeTerm.induction with
  | literal text =>
      exact (Error.failsOnly_ofTime _).bind fun _ _ => failsOnly_ok _
  | selector name? field =>
      exact (s.failsOnly_target name?).bind fun _ _ => failsOnly_ok _
  | aggregate choice args ih =>
      rw [elaborate, elaborateEach_eq, names, namesEach_eq]
      exact (failsOnly_mapM_names ih).bind fun ps _ => choice.failsOnly_of ps

theorem IntervalTerm.failsOnly_elaborate (s : Scope) (i : IntervalTerm) :
    FailsOnly (Error.IsFault i.names s.names) (i.elaborate s) := by
  induction i with
  | selector name? axis =>
      exact (s.failsOnly_target name?).bind fun _ _ => failsOnly_ok _
  | literal start stop =>
      refine (start.failsOnly_elaborate s).left.bind fun _ _ => ?_
      exact (stop.failsOnly_elaborate s).right.bind fun _ _ => failsOnly_ok _
  | merge i j ihi ihj | join i j ihi ihj =>
      exact ihi.left.bind fun _ _ => ihj.right.bind fun _ _ => failsOnly_ok _

theorem LengthTerm.failsOnly_elaborate {declared : List String} (l : LengthTerm) :
    FailsOnly (Error.IsFault written declared) l.elaborate := by
  cases l with
  | unit name amount =>
      exact (Error.failsOnly_ofTime _).bind fun _ _ => Error.failsOnly_ofTime _
  | components c => exact Error.failsOnly_ofTime _

theorem ArgumentTerm.failsOnly_elaborate (s : Scope) (t : ArgumentTerm) :
    FailsOnly (Error.IsFault t.names s.names) (t.elaborate s) := by
  cases t with
  | interval i => exact (i.failsOnly_elaborate s).bind fun _ _ => failsOnly_ok _
  | timestamp t => exact (t.failsOnly_elaborate s).bind fun _ _ => failsOnly_ok _
  | length l => exact l.failsOnly_elaborate.bind fun _ _ => failsOnly_ok _

theorem OperandTerm.failsOnly_elaborate (s : Scope) (t : OperandTerm) :
    FailsOnly (Error.IsFault t.names s.names) (t.elaborate s) := by
  cases t with
  | value v => exact failsOnly_ok _
  | element name | property name key =>
      exact (s.failsOnly_lookup name).bind fun _ _ => failsOnly_ok _
  | timestamp t => exact (t.failsOnly_elaborate s).bind fun _ _ => failsOnly_ok _

theorem Filter.failsOnly_elaborate (s : Scope) (f : Filter) :
    FailsOnly (Error.IsFault f.names s.names) (f.elaborate s) := by
  induction f with
  | and f g ihf ihg | or f g ihf ihg | xor f g ihf ihg =>
      exact ihf.left.bind fun _ _ => ihg.right.bind fun _ _ => failsOnly_ok _
  | not f ih => exact ih.bind fun _ _ => failsOnly_ok _
  | comparison lhs op rhs =>
      refine (lhs.failsOnly_elaborate s).left.bind fun _ _ => ?_
      refine (Comparator.failsOnly_parse op).bind fun _ _ => ?_
      exact (rhs.failsOnly_elaborate s).right.bind fun _ _ => failsOnly_ok _
  | intervalCall caller function args =>
      refine (IntervalRelation.failsOnly_ofName function).bind fun relation _ => ?_
      refine (caller.failsOnly_elaborate s).left.bind fun c _ => ?_
      have hargs := failsOnly_mapM_names fun arg (_ : arg ∈ args) => arg.failsOnly_elaborate s
      exact hargs.right.bind fun as _ => relation.failsOnly_apply c as
  | timestampCall caller function args =>
      refine (TimestampRelation.failsOnly_ofName function).bind fun relation _ => ?_
      refine (caller.failsOnly_elaborate s).left.bind fun c _ => ?_
      have hargs := failsOnly_mapM_names fun arg (_ : arg ∈ args) => arg.failsOnly_elaborate s
      exact hargs.right.bind fun as _ => relation.failsOnly_apply c as
  | asOf name? time =>
      refine (s.failsOnly_mapM_lookup name?).left.bind fun _ _ => ?_
      exact (time.failsOnly_elaborate s).right.bind fun _ _ => failsOnly_ok _

/-! ## Elaboration in a pattern -/

namespace Filter

/-- A filter has a predicate in a pattern exactly if it is acceptable there, and it has the same
predicate in every pattern with more names.  A name that is reported as unknown is written in the
filter and not declared. -/
theorem elaborates_exactly_if_accepted (names : List String) (now : Millis) (f : Filter) :
    ((∃ p, f.elaborate (.ofNames names now) = .ok p) ↔ f.Accepted names) ∧
      (∀ names' p, names ⊆ names' → f.elaborate (.ofNames names now) = .ok p →
        f.elaborate (.ofNames names' now) = .ok p) ∧
      ∀ name, f.elaborate (.ofNames names now) = .error (.unresolvedVariable name) →
        name ∈ f.names ∧ name ∉ names := by
  have hmem (names : List String) (name : String) :
      name ∈ (Scope.ofNames names now).names ↔ name ∈ names := List.mem_eraseDups
  have haccepted := exists_elaborate_iff (hmem names) (f := f)
  refine ⟨haccepted, ?_, ?_⟩
  · intro names' p hsub hp
    have hwritten : f.names ⊆ names := names_subset_of_accepted (haccepted.1 ⟨p, hp⟩)
    have hagree : Scope.AgreeOn f.names (.ofNames names now) (.ofNames names' now) := by
      refine ⟨rfl, fun name hname => ?_⟩
      rw [hmem, hmem]
      exact iff_of_true (hwritten hname) (hsub (hwritten hname))
    rw [← elaborate_congr hagree, hp]
  · intro name herror
    obtain ⟨hwritten, hmissing⟩ := f.failsOnly_elaborate _ _ herror
    exact ⟨hwritten, fun hname => hmissing ((hmem names name).2 hname)⟩

/-- A filter about two elements, in a pattern with both of them and another one, and in a pattern
with only one of them. -/
theorem elaborates_exactly_if_accepted_of_two_names :
    ∃ f : Filter, f = .and
        (.timestampCall (.aggregate .max [.selector (some "a") Axis.valid.start,
            .literal "2020-01-01"]) "precedes"
          [.interval (.merge (.selector (some "b") .valid) (.selector none .transaction))])
        (.comparison (.property "a" "since") " <> " (.element "b")) ∧
      f.Accepted ["a", "b"] ∧
      (∃ p, f.elaborate (.ofNames ["a", "b"] 0) = .ok p ∧
        f.elaborate (.ofNames ["c", "b", "a"] 0) = .ok p) ∧
      f.elaborate (.ofNames ["a"] 0) = .error (.unresolvedVariable "b") ∧
      "b" ∈ f.names ∧ "b" ∉ ["a"] := by
  refine ⟨_, rfl, ?_⟩
  generalize hf : Filter.and _ _ = f
  have hresult : (f.elaborate (.ofNames ["a", "b"] 0)).map (fun _ => true) = .ok true := by
    rw [← hf]
    decide +kernel
  have herror : f.elaborate (.ofNames ["a"] 0) = .error (.unresolvedVariable "b") := by
    rw [← hf]
    with_unfolding_all rfl
  obtain ⟨p, hp, -⟩ := map_eq_ok.1 hresult
  obtain ⟨haccepted, hextended, -⟩ := elaborates_exactly_if_accepted ["a", "b"] 0 f
  exact ⟨haccepted.1 ⟨p, hp⟩, ⟨p, hp, hextended _ p (by decide) hp⟩, herror,
    (elaborates_exactly_if_accepted ["a"] 0 f).2.2 "b" herror⟩

end Filter
end TemporalPattern
