import TemporalPattern.Filter.Elaborate
import TemporalPattern.Proofs.ArgumentKinds
import TemporalPattern.Proofs.Lengths
import TemporalPattern.Proofs.Terms

/-!
# Accepted filters elaborate

Elaboration stops at the first fault, acceptance asks for the absence of all of them.  Both look at
the same parts of a filter, so a filter has a predicate exactly if it is accepted.  What the
arguments of a call elaborate to is of the same kinds as the arguments.
-/

namespace TemporalPattern

/-! ## Texts and lengths -/

theorem Comparator.exists_parse_iff {text : String} :
    (∃ op, parse text = .ok op) ↔
      Text.trim text ∈ ["=", "!=", "<>", ">", "<", ">=", "<="] := by
  have hsymbol (symbol : String) :
      (∃ op, ofSymbol? symbol = some op) ↔ symbol ∈ ["=", "!=", "<>", ">", "<", ">=", "<="] := by
    unfold ofSymbol?
    split <;> simp_all
  rw [← hsymbol]
  unfold parse
  split <;> simp_all

theorem LengthTerm.exists_elaborate_iff {l : LengthTerm} :
    (∃ length, l.elaborate = .ok length) ↔ l.Accepted := by
  cases l with
  | unit name amount =>
      simp only [elaborate, exists_bind_eq_ok, Error.ofTime_eq_ok, TimeUnit.exists_duration_iff,
        Accepted]
  | components c =>
      simp only [elaborate, Error.ofTime_eq_ok, Components.exists_duration_iff, Accepted]

/-! ## Terms -/

theorem Scope.exists_lookup_iff {s : Scope} {name : String} :
    (∃ x, s.lookup name = .ok x) ↔ name ∈ s.names := by
  unfold lookup
  split <;> simp_all

section

variable {s : Scope} {names : List String} (hnames : ∀ name, name ∈ s.names ↔ name ∈ names)

include hnames

theorem Scope.exists_target_iff {name? : Option String} :
    (∃ x, s.target name? = .ok x) ↔ ∀ name ∈ name?, name ∈ names := by
  cases name? with
  | none => simp [target]
  | some name => simp [target, exists_lookup_iff, hnames]

/-- No name is looked up where none is written. -/
theorem Scope.exists_mapM_lookup_iff {name? : Option String} :
    (∃ x?, name?.mapM s.lookup = .ok x?) ↔ ∀ name ∈ name?, name ∈ names := by
  cases name? with
  | none => simp
  | some name =>
      have hmap : (some name).mapM s.lookup = s.lookup name >>= fun x => .ok (some x) := rfl
      simp [hmap, exists_bind_eq_ok, exists_lookup_iff, hnames]

theorem TimeTerm.exists_elaborate_iff {t : TimeTerm} :
    (∃ p, t.elaborate s = .ok p) ↔ t.Accepted names := by
  induction t using TimeTerm.induction with
  | literal text =>
      simp only [elaborate, exists_bind_eq_ok, pure_eq_ok, exists_eq', and_true,
        Error.ofTime_eq_ok, Accepted]
  | selector name? field =>
      simp only [elaborate, exists_bind_eq_ok, pure_eq_ok, exists_eq', and_true,
        Scope.exists_target_iff hnames, Accepted]
  | aggregate choice args ih =>
      have hargs : (∃ ps, args.mapM (elaborate s) = .ok ps) ↔ ∀ t ∈ args, t.Accepted names := by
        rw [exists_mapM_eq_ok]
        exact forall₂_congr ih
      have hne {ps : List TimePoint} (hps : args.mapM (elaborate s) = .ok ps) :
          ps ≠ [] ↔ args ≠ [] := by
        have hlength := (mapM_eq_ok.1 hps).length_eq
        rw [← List.length_pos_iff, ← List.length_pos_iff, hlength]
      rw [Accepted, acceptedEach_iff, ← hargs]
      simp only [elaborate, exists_bind_eq_ok, elaborateEach_eq, Aggregate.exists_of_iff]
      constructor
      · rintro ⟨ps, hps, hnil⟩
        exact ⟨(hne hps).1 hnil, ps, hps⟩
      · rintro ⟨hnil, ps, hps⟩
        exact ⟨ps, hps, (hne hps).2 hnil⟩

theorem IntervalTerm.exists_elaborate_iff {i : IntervalTerm} :
    (∃ c, i.elaborate s = .ok c) ↔ i.Accepted names := by
  induction i with
  | selector name? axis =>
      simp only [elaborate, exists_bind_eq_ok, pure_eq_ok, exists_eq', and_true,
        Scope.exists_target_iff hnames, Accepted]
  | literal start stop =>
      simp only [elaborate, exists_bind_eq_ok, pure_eq_ok, exists_eq', and_true, exists_and_right,
        TimeTerm.exists_elaborate_iff hnames, Accepted]
  | merge i j ihi ihj | join i j ihi ihj =>
      simp only [elaborate, exists_bind_eq_ok, pure_eq_ok, exists_eq', and_true, exists_and_right,
        ihi, ihj, Accepted]

theorem ArgumentTerm.exists_elaborate_iff {t : ArgumentTerm} :
    (∃ a, t.elaborate s = .ok a) ↔ t.Accepted names := by
  cases t <;>
    simp only [elaborate, exists_bind_eq_ok, pure_eq_ok, exists_eq', and_true, Accepted,
      IntervalTerm.exists_elaborate_iff hnames, TimeTerm.exists_elaborate_iff hnames,
      LengthTerm.exists_elaborate_iff]

theorem ArgumentTerm.exists_elaborate_all_iff {ts : List ArgumentTerm} :
    (∃ args, ts.mapM (elaborate s) = .ok args) ↔ ∀ t ∈ ts, t.Accepted names := by
  rw [exists_mapM_eq_ok]
  exact forall₂_congr fun _ _ => exists_elaborate_iff hnames

theorem OperandTerm.exists_elaborate_iff {t : OperandTerm} :
    (∃ o, t.elaborate s = .ok o) ↔ t.Accepted names := by
  cases t with
  | value v => exact iff_of_true ⟨.value v, rfl⟩ trivial
  | element name | property name key =>
      simp only [elaborate, exists_bind_eq_ok, pure_eq_ok, exists_eq', and_true,
        Scope.exists_lookup_iff, hnames, Accepted]
  | timestamp t =>
      simp only [elaborate, exists_bind_eq_ok, pure_eq_ok, exists_eq', and_true,
        TimeTerm.exists_elaborate_iff hnames, Accepted]

end

/-! ## Filters -/

theorem ArgumentTerm.kind_of_elaborate {s : Scope} {t : ArgumentTerm} {a : Argument}
    (h : t.elaborate s = .ok a) : a.kind = t.kind := by
  cases t <;> simp only [elaborate, bind_eq_ok, pure_eq_ok] at h <;> obtain ⟨_, -, rfl⟩ := h <;> rfl

theorem ArgumentTerm.kinds_of_elaborate {s : Scope} {ts : List ArgumentTerm}
    {args : List Argument} (h : ts.mapM (elaborate s) = .ok args) :
    args.map Argument.kind = ts.map kind :=
  map_eq_of_mapM h fun _ _ _ ht => kind_of_elaborate ht

/-- A call has a predicate if its relation exists and takes the arguments and if all of its terms
elaborate. -/
theorem exists_call_iff {ρ γ : Type} {relation : Except Error ρ} {caller : Except Error γ}
    {args : Except Error (List Argument)} {apply : ρ → γ → List Argument → Except Error Predicate}
    {Takes : ρ → Prop}
    (happly : ∀ r c as, args = .ok as → ((∃ p, apply r c as = .ok p) ↔ Takes r)) :
    (∃ p, (do apply (← relation) (← caller) (← args)) = .ok p) ↔
      (∃ r, relation = .ok r ∧ Takes r) ∧ (∃ c, caller = .ok c) ∧ ∃ as, args = .ok as := by
  simp only [exists_bind_eq_ok]
  constructor
  · rintro ⟨r, hr, c, hc, as, has, hp⟩
    exact ⟨⟨r, hr, (happly r c as has).1 hp⟩, ⟨c, hc⟩, as, has⟩
  · rintro ⟨⟨r, hr, htakes⟩, ⟨c, hc⟩, as, has⟩
    exact ⟨r, hr, c, hc, as, has, (happly r c as has).2 htakes⟩

theorem Filter.exists_elaborate_iff {s : Scope} {names : List String}
    (hnames : ∀ name, name ∈ s.names ↔ name ∈ names) {f : Filter} :
    (∃ p, f.elaborate s = .ok p) ↔ f.Accepted names := by
  induction f with
  | and f g ihf ihg | or f g ihf ihg | xor f g ihf ihg =>
      simp only [elaborate, exists_bind_eq_ok, pure_eq_ok, exists_eq', and_true, exists_and_right,
        ihf, ihg, Accepted]
  | not f ih =>
      simp only [elaborate, exists_bind_eq_ok, pure_eq_ok, exists_eq', and_true, ih, Accepted]
  | comparison lhs op rhs =>
      simp only [elaborate, exists_bind_eq_ok, pure_eq_ok, exists_eq', and_true, exists_and_right,
        OperandTerm.exists_elaborate_iff hnames, Comparator.exists_parse_iff, Accepted]
  | intervalCall caller function args =>
      rw [elaborate, Accepted, ← IntervalTerm.exists_elaborate_iff hnames,
        ← ArgumentTerm.exists_elaborate_all_iff hnames]
      simp only [← IntervalRelation.ofName_eq_ok]
      apply exists_call_iff
      intro relation c as has
      rw [IntervalRelation.exists_apply_iff, ArgumentTerm.kinds_of_elaborate has]
  | timestampCall caller function args =>
      rw [elaborate, Accepted, ← TimeTerm.exists_elaborate_iff hnames,
        ← ArgumentTerm.exists_elaborate_all_iff hnames]
      simp only [← TimestampRelation.ofName_eq_ok]
      apply exists_call_iff
      intro relation c as has
      rw [TimestampRelation.exists_apply_iff, ArgumentTerm.kinds_of_elaborate has]
  | asOf name? time =>
      simp only [elaborate, exists_bind_eq_ok, pure_eq_ok, exists_eq', and_true, exists_and_right,
        Scope.exists_mapM_lookup_iff hnames, TimeTerm.exists_elaborate_iff hnames, Accepted]

end TemporalPattern
