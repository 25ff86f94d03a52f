import TemporalPattern.Proofs.Normalizing
import TemporalPattern.Proofs.Ordinary

/-!
# Elaborated filters are ordinary

What a filter elaborates to compares ordinary terms only, and so does what resolving and unfolding
make of it.  What holds of every literal that can be read holds of the literals in these terms.
-/

namespace TemporalPattern

variable {good : Millis → Prop} {s : Scope}

/-! ## Elaboration -/

section

variable (hgood : ∀ text moment, Moment.parse text = .ok moment → good (moment.time s.now))

include hgood

theorem TimeTerm.isInstant_of_elaborate {t : TimeTerm} {p : TimePoint}
    (h : t.elaborate s = .ok p) : p.IsInstant good := by
  induction t using TimeTerm.induction generalizing p with
  | literal text =>
      simp only [elaborate, bind_eq_ok, pure_eq_ok, Error.ofTime_eq_ok] at h
      obtain ⟨moment, hmoment, rfl⟩ := h
      exact .literal (hgood text moment hmoment)
  | selector name? field =>
      simp only [elaborate, bind_eq_ok, pure_eq_ok] at h
      obtain ⟨name, -, rfl⟩ := h
      exact .selector name field
  | aggregate choice args ih =>
      simp only [elaborate, elaborateEach_eq, bind_eq_ok] at h
      obtain ⟨ps, hps, hp⟩ := h
      apply Aggregate.isInstant_of hp
      intro q hq
      obtain ⟨t, ht, htq⟩ := exists_of_mem_mapM hps hq
      exact ih t ht htq

theorem IntervalTerm.isOrdinary_of_elaborate {i : IntervalTerm} {c : Constrained Interval}
    (h : i.elaborate s = .ok c) : c.IsOrdinary good := by
  induction i generalizing c with
  | selector name? axis =>
      simp only [elaborate, bind_eq_ok, pure_eq_ok] at h
      obtain ⟨name, -, rfl⟩ := h
      exact Constrained.isOrdinary_free (Interval.isOrdinary_ofElement name axis)
  | literal start stop =>
      simp only [elaborate, bind_eq_ok, pure_eq_ok] at h
      obtain ⟨p, hp, q, hq, rfl⟩ := h
      have hstart := TimeTerm.isInstant_of_elaborate hgood hp
      have hstop := TimeTerm.isInstant_of_elaborate hgood hq
      exact Constrained.isOrdinary_literal hstart hstop
  | merge i j ihi ihj =>
      simp only [elaborate, bind_eq_ok, pure_eq_ok] at h
      obtain ⟨a, ha, b, hb, rfl⟩ := h
      exact Constrained.isOrdinary_merge (ihi ha) (ihj hb)
  | join i j ihi ihj =>
      simp only [elaborate, bind_eq_ok, pure_eq_ok] at h
      obtain ⟨a, ha, b, hb, rfl⟩ := h
      exact Constrained.isOrdinary_join (ihi ha) (ihj hb)

theorem ArgumentTerm.isOrdinary_of_elaborate {t : ArgumentTerm} {a : Argument}
    (h : t.elaborate s = .ok a) : a.IsOrdinary good := by
  cases t with
  | interval i =>
      simp only [elaborate, bind_eq_ok, pure_eq_ok] at h
      obtain ⟨c, hc, rfl⟩ := h
      exact IntervalTerm.isOrdinary_of_elaborate hgood hc
  | timestamp t =>
      simp only [elaborate, bind_eq_ok, pure_eq_ok] at h
      obtain ⟨p, hp, rfl⟩ := h
      exact TimeTerm.isInstant_of_elaborate hgood hp
  | length l =>
      simp only [elaborate, bind_eq_ok, pure_eq_ok] at h
      obtain ⟨length, -, rfl⟩ := h
      exact trivial

theorem ArgumentTerm.isOrdinary_of_elaborate_all {ts : List ArgumentTerm} {args : List Argument}
    (h : ts.mapM (elaborate s) = .ok args) : ∀ a ∈ args, a.IsOrdinary good := by
  intro a ha
  obtain ⟨t, -, ht⟩ := exists_of_mem_mapM h ha
  exact isOrdinary_of_elaborate hgood ht

theorem OperandTerm.isOrdinary_of_elaborate {t : OperandTerm} {o : Operand}
    (h : t.elaborate s = .ok o) : o.IsOrdinary good := by
  cases t with
  | timestamp t =>
      simp only [elaborate, bind_eq_ok, pure_eq_ok] at h
      obtain ⟨p, hp, rfl⟩ := h
      exact .instant (TimeTerm.isInstant_of_elaborate hgood hp)
  | value v =>
      obtain rfl := Except.ok.inj h
      exact trivial
  | element name | property name key =>
      simp only [elaborate, bind_eq_ok, pure_eq_ok] at h
      obtain ⟨name, -, rfl⟩ := h
      exact trivial

theorem Filter.isOrdinary_of_elaborate {f : Filter} {p : Predicate} (h : f.elaborate s = .ok p) :
    p.IsOrdinary good := by
  induction f generalizing p with
  | and f g ihf ihg | or f g ihf ihg | xor f g ihf ihg =>
      simp only [elaborate, bind_eq_ok, pure_eq_ok] at h
      obtain ⟨p, hp, q, hq, rfl⟩ := h
      exact Predicate.isOrdinary_and (ihf hp) (ihg hq)
  | not f ih =>
      simp only [elaborate, bind_eq_ok, pure_eq_ok] at h
      obtain ⟨p, hp, rfl⟩ := h
      have hordinary : p.IsOrdinary good := ih hp
      exact hordinary
  | comparison lhs op rhs =>
      simp only [elaborate, bind_eq_ok, pure_eq_ok] at h
      obtain ⟨l, hl, op, -, r, hr, rfl⟩ := h
      have hlhs := OperandTerm.isOrdinary_of_elaborate hgood hl
      have hrhs := OperandTerm.isOrdinary_of_elaborate hgood hr
      intro c hc
      obtain rfl := List.mem_singleton.1 hc
      exact ⟨hlhs, hrhs⟩
  | intervalCall caller function args =>
      simp only [elaborate, bind_eq_ok] at h
      obtain ⟨relation, -, c, hc, as, has, hp⟩ := h
      have hcaller := IntervalTerm.isOrdinary_of_elaborate hgood hc
      have hargs := ArgumentTerm.isOrdinary_of_elaborate_all hgood has
      exact IntervalRelation.isOrdinary_apply hp hcaller hargs
  | timestampCall caller function args =>
      simp only [elaborate, bind_eq_ok] at h
      obtain ⟨relation, -, c, hc, as, has, hp⟩ := h
      have hcaller := TimeTerm.isInstant_of_elaborate hgood hc
      have hargs := ArgumentTerm.isOrdinary_of_elaborate_all hgood has
      exact TimestampRelation.isOrdinary_apply hp hcaller hargs
  | asOf name? time =>
      simp only [elaborate, bind_eq_ok, pure_eq_ok] at h
      obtain ⟨name, -, q, hq, rfl⟩ := h
      have htime := TimeTerm.isInstant_of_elaborate hgood hq
      exact Interval.isOrdinary_containsPoint (Interval.isOrdinary_ofElement _ _) htime

end

/-! ## Normalization -/

variable {names : List String}

theorem TimePoint.isInstant_of_resolve {p q : TimePoint} (hp : p.IsInstant good)
    (h : p.resolve names = .ok q) : q.IsInstant good := by
  induction hp generalizing q with
  | literal htime =>
      obtain rfl := Except.ok.inj h
      exact .literal htime
  | selector name field =>
      rw [resolve, resolveSelector] at h
      split at h
      case isTrue =>
        obtain rfl := Except.ok.inj h
        exact .selector name field
      case isFalse =>
        split at h
        case isTrue => simp at h
        case isFalse =>
          apply Aggregate.isInstant_of h
          intro r hr
          obtain ⟨name, -, rfl⟩ := List.mem_map.1 hr
          exact .selector name field
  | @aggregate choice args hne _ ih =>
      simp only [resolve, resolveEach_eq, bind_eq_ok, pure_eq_ok] at h
      obtain ⟨args', hargs', rfl⟩ := h
      apply IsInstant.aggregate choice
      · intro hnil
        rw [hnil, mapM_eq_ok] at hargs'
        exact hne (List.forall₂_nil_right_iff.1 hargs')
      · intro r hr
        obtain ⟨p, hp, hpr⟩ := exists_of_mem_mapM hargs' hr
        exact ih p hp hpr

theorem TimePoint.isOrdinary_of_resolve {p q : TimePoint} (hp : p.IsOrdinary good)
    (h : p.resolve names = .ok q) : q.IsOrdinary good := by
  cases hp with
  | instant hp => exact .instant (isInstant_of_resolve hp h)
  | constant length =>
      obtain rfl := Except.ok.inj h
      exact .constant length
  | duration hstart hstop =>
      simp only [resolve, bind_eq_ok, pure_eq_ok] at h
      obtain ⟨start', hstart', stop', hstop', rfl⟩ := h
      have hstart := isInstant_of_resolve hstart hstart'
      have hstop := isInstant_of_resolve hstop hstop'
      exact .duration hstart hstop

theorem Operand.isOrdinary_of_resolve {o o' : Operand} (ho : o.IsOrdinary good)
    (h : o.resolve names = .ok o') : o'.IsOrdinary good := by
  cases o with
  | time p =>
      simp only [resolve, bind_eq_ok, pure_eq_ok] at h
      obtain ⟨p', hp', rfl⟩ := h
      exact TimePoint.isOrdinary_of_resolve ho hp'
  | value _ | element _ | property _ _ =>
      obtain rfl := Except.ok.inj h
      exact trivial

theorem Predicate.isOrdinary_of_resolve {p q : Predicate} (hp : p.IsOrdinary good)
    (h : resolve names p = .ok q) : q.IsOrdinary good := by
  intro d hd
  obtain ⟨c, hc, r, hr, hdr⟩ := Formula.exists_of_mem_atoms_substitute h hd
  simp only [Comparison.resolve, bind_eq_ok, pure_eq_ok] at hr
  obtain ⟨_, ⟨lhs, hlhs, rhs, hrhs, rfl⟩, rfl⟩ := hr
  obtain rfl := List.mem_singleton.1 hdr
  have hl : lhs.IsOrdinary good := Operand.isOrdinary_of_resolve (hp c hc).lhs hlhs
  have hr : rhs.IsOrdinary good := Operand.isOrdinary_of_resolve (hp c hc).rhs hrhs
  exact ⟨hl, hr⟩

theorem Predicate.isOrdinary_of_unfoldAggregates {p q : Predicate} (hp : p.IsOrdinary good)
    (h : unfoldAggregates p = .ok q) : q.IsOrdinary good := by
  have hpassed : Comparison.PassedOn (Operand.IsOrdinary good) := by
    intro choice args hagg p hp
    obtain ⟨hinstant⟩ | _ | _ := hagg
    cases hinstant with
    | aggregate _ _ hargs => exact .instant (hargs p hp)
  intro d hd
  obtain ⟨c, hc, r, hr, hdr⟩ := Formula.exists_of_mem_atoms_substitute h hd
  obtain ⟨hlhs, hrhs⟩ :=
    Comparison.operands_of_unfoldAggregates hpassed hr (hp c hc).lhs (hp c hc).rhs d hdr
  exact ⟨hlhs, hrhs⟩

theorem Predicate.isOrdinary_of_normalize {p q : Predicate} (hp : p.IsOrdinary good)
    (h : normalize names p = .ok q) : q.IsOrdinary good := by
  rw [normalize_eq, bind_eq_ok] at h
  obtain ⟨r, hr, hq⟩ := h
  have hresolved : r.IsOrdinary good := isOrdinary_of_resolve hp hr
  exact isOrdinary_of_unfoldAggregates hresolved hq

end TemporalPattern
