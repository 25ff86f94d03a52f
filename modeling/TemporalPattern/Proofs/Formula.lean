import TemporalPattern.Logic.Formula
import TemporalPattern.Proofs.Kleene
import TemporalPattern.Proofs.Result

/-!
# Truth of formulas

How the truth of a formula follows from its parts when it is made from a list of formulas, and what
becomes of it when its atoms are replaced by formulas.  A verdict on a formula depends on nothing
but the verdicts on its atoms.
-/

namespace TemporalPattern.Formula

variable {α β ε : Type} {truth : α → Prop}

/-! ## Lists of formulas -/

theorem holds_conjoin (p : Formula α) (conditions : List (Formula α)) :
    (p.conjoin conditions).Holds truth ↔
      p.Holds truth ∧ ∀ q ∈ conditions, q.Holds truth := by
  induction conditions generalizing p with
  | nil => simp [conjoin]
  | cons q qs ih =>
      have hfold : p.conjoin (q :: qs) = (p.and q).conjoin qs := rfl
      rw [hfold, ih, Holds, List.forall_mem_cons, and_assoc]

theorem holds_disjoin (p : Formula α) (alternatives : List (Formula α)) :
    (p.disjoin alternatives).Holds truth ↔
      p.Holds truth ∨ ∃ q ∈ alternatives, q.Holds truth := by
  induction alternatives generalizing p with
  | nil => simp [disjoin]
  | cons q qs ih =>
      have hfold : p.disjoin (q :: qs) = (p.or q).disjoin qs := rfl
      rw [hfold, ih, Holds, List.exists_mem_cons_iff, or_assoc]

theorem holds_conjunction {ps : List (Formula α)} {p : Formula α}
    (h : conjunction ps = some p) : p.Holds truth ↔ ∀ q ∈ ps, q.Holds truth := by
  cases ps with
  | nil => simp [conjunction] at h
  | cons q qs =>
      simp only [conjunction, Option.some.injEq] at h
      rw [← h, holds_conjoin, List.forall_mem_cons]

theorem holds_disjunction {ps : List (Formula α)} {p : Formula α}
    (h : disjunction ps = some p) : p.Holds truth ↔ ∃ q ∈ ps, q.Holds truth := by
  cases ps with
  | nil => simp [disjunction] at h
  | cons q qs =>
      simp only [disjunction, Option.some.injEq] at h
      rw [← h, holds_disjoin, List.exists_mem_cons_iff]

@[simp] theorem conjunction_eq_none {ps : List (Formula α)} : conjunction ps = none ↔ ps = [] := by
  cases ps <;> simp [conjunction]

@[simp] theorem disjunction_eq_none {ps : List (Formula α)} : disjunction ps = none ↔ ps = [] := by
  cases ps <;> simp [disjunction]

/-! ## Replacing atoms -/

variable {p : Formula α} {f : (a : α) → a ∈ p.atoms → Except ε (Formula β)}

/-- Every atom of the result comes from an atom of the formula. -/
theorem exists_of_mem_atoms_substitute {q : Formula β} {b : β}
    (h : p.substitute f = .ok q) (hb : b ∈ q.atoms) :
    ∃ a ha r, f a ha = .ok r ∧ b ∈ r.atoms := by
  induction p generalizing q with
  | atom a => exact ⟨a, List.mem_singleton_self a, q, h, hb⟩
  | not p ih =>
      simp only [substitute, bind_eq_ok, pure_eq_ok] at h
      obtain ⟨p', hp, rfl⟩ := h
      exact ih hp hb
  | and p q ihp ihq | or p q ihp ihq | xor p q ihp ihq =>
      simp only [substitute, bind_eq_ok, pure_eq_ok] at h
      obtain ⟨p', hp, q', hq, rfl⟩ := h
      rcases List.mem_append.1 hb with hb | hb
      · obtain ⟨a, ha, r, hr, hbr⟩ := ihp hp hb
        exact ⟨a, List.mem_append_left _ ha, r, hr, hbr⟩
      · obtain ⟨a, ha, r, hr, hbr⟩ := ihq hq hb
        exact ⟨a, List.mem_append_right _ ha, r, hr, hbr⟩

/-- Every atom of the formula leaves its replacement in the result. -/
theorem atoms_subset_of_substitute {q : Formula β} {a : α}
    (h : p.substitute f = .ok q) (ha : a ∈ p.atoms) :
    ∃ r, f a ha = .ok r ∧ r.atoms ⊆ q.atoms := by
  induction p generalizing q with
  | atom a' =>
      obtain rfl := List.mem_singleton.1 ha
      exact ⟨q, h, List.Subset.refl _⟩
  | not p ih =>
      simp only [substitute, bind_eq_ok, pure_eq_ok] at h
      obtain ⟨p', hp, rfl⟩ := h
      exact ih hp ha
  | and p q ihp ihq | or p q ihp ihq | xor p q ihp ihq =>
      simp only [substitute, bind_eq_ok, pure_eq_ok] at h
      obtain ⟨p', hp, q', hq, rfl⟩ := h
      rcases List.mem_append.1 ha with ha' | ha'
      · obtain ⟨r, hr, hsub⟩ := ihp hp ha'
        exact ⟨r, hr, List.subset_append_of_subset_left _ hsub⟩
      · obtain ⟨r, hr, hsub⟩ := ihq hq ha'
        exact ⟨r, hr, List.subset_append_of_subset_right _ hsub⟩

/-- The result has an atom of some kind exactly if an atom of the formula is replaced by a formula
that has one. -/
theorem exists_mem_atoms_substitute_iff {q : Formula β} {P : α → Prop} {P' : β → Prop}
    (h : p.substitute f = .ok q)
    (hf : ∀ a ha r, f a ha = .ok r → ((∃ b ∈ r.atoms, P' b) ↔ P a)) :
    (∃ b ∈ q.atoms, P' b) ↔ ∃ a ∈ p.atoms, P a := by
  constructor
  · rintro ⟨b, hb, hP⟩
    obtain ⟨a, ha, r, hr, hbr⟩ := exists_of_mem_atoms_substitute h hb
    exact ⟨a, ha, (hf a ha r hr).1 ⟨b, hbr, hP⟩⟩
  · rintro ⟨a, ha, hP⟩
    obtain ⟨r, hr, hsub⟩ := atoms_subset_of_substitute h ha
    obtain ⟨b, hbr, hP'⟩ := (hf a ha r hr).2 hP
    exact ⟨b, hsub hbr, hP'⟩

/-- What is listed atom by atom keeps its order. -/
theorem flatMap_atoms_substitute {γ : Type} {q : Formula β} {k : α → List γ} {k' : β → List γ}
    (h : p.substitute f = .ok q)
    (hf : ∀ a ha r, f a ha = .ok r → r.atoms.flatMap k' = k a) :
    q.atoms.flatMap k' = p.atoms.flatMap k := by
  induction p generalizing q with
  | atom a =>
      rw [hf a (List.mem_singleton_self a) q h]
      exact (List.flatMap_singleton k a).symm
  | not p ih =>
      simp only [substitute, bind_eq_ok, pure_eq_ok] at h
      obtain ⟨p', hp, rfl⟩ := h
      rw [atoms, atoms, ih hp fun a ha => hf a ha]
  | and p q ihp ihq | or p q ihp ihq | xor p q ihp ihq =>
      simp only [substitute, bind_eq_ok, pure_eq_ok] at h
      obtain ⟨p', hp, q', hq, rfl⟩ := h
      rw [atoms, atoms, List.flatMap_append, List.flatMap_append,
        ihp hp fun a ha => hf a (List.mem_append_left _ ha),
        ihq hq fun a ha => hf a (List.mem_append_right _ ha)]

/-- An error is that of some atom. -/
theorem exists_of_substitute_eq_error {e : ε} (h : p.substitute f = .error e) :
    ∃ a ha, f a ha = .error e := by
  induction p with
  | atom a => exact ⟨a, List.mem_singleton_self a, h⟩
  | not p ih =>
      simp only [substitute, bind_eq_error, pure_ne_error, and_false, exists_false,
        or_false] at h
      exact ih h
  | and p q ihp ihq | or p q ihp ihq | xor p q ihp ihq =>
      simp only [substitute, bind_eq_error, pure_ne_error, and_false, exists_false,
        or_false] at h
      rcases h with hp | ⟨_, _, hq⟩
      · obtain ⟨a, ha, he⟩ := ihp hp
        exact ⟨a, List.mem_append_left _ ha, he⟩
      · obtain ⟨a, ha, he⟩ := ihq hq
        exact ⟨a, List.mem_append_right _ ha, he⟩

/-- A formula has a result if every atom has a replacement. -/
theorem exists_substitute_iff :
    (∃ q, p.substitute f = .ok q) ↔ ∀ a ha, ∃ r, f a ha = .ok r := by
  constructor
  · rintro ⟨q, h⟩ a ha
    obtain ⟨r, hr, -⟩ := atoms_subset_of_substitute h ha
    exact ⟨r, hr⟩
  · intro h
    cases hp : p.substitute f with
    | ok q => exact ⟨q, rfl⟩
    | error e =>
        obtain ⟨a, ha, he⟩ := exists_of_substitute_eq_error hp
        obtain ⟨r, hr⟩ := h a ha
        simp [he] at hr

theorem failsOnly_substitute {Fault : ε → Prop} (h : ∀ a ha, FailsOnly Fault (f a ha)) :
    FailsOnly Fault (p.substitute f) := by
  intro e he
  obtain ⟨a, ha, hfe⟩ := exists_of_substitute_eq_error he
  exact h a ha e hfe

/-- An atom that is replaced by itself stays where it is. -/
theorem substitute_atom {p : Formula α} {f : (a : α) → a ∈ p.atoms → Except ε (Formula α)}
    (h : ∀ a ha, f a ha = .ok (.atom a)) : p.substitute f = .ok p := by
  induction p with
  | atom a => exact h a (List.mem_singleton_self a)
  | not p ih =>
      simp only [substitute, bind_eq_ok, pure_eq_ok]
      exact ⟨p, ih fun a ha => h a ha, rfl⟩
  | and p q ihp ihq | or p q ihp ihq | xor p q ihp ihq =>
      simp only [substitute, bind_eq_ok, pure_eq_ok]
      have hp := ihp fun a ha => h a (List.mem_append_left _ ha)
      have hq := ihq fun a ha => h a (List.mem_append_right _ ha)
      exact ⟨p, hp, q, hq, rfl⟩

/-- Replacements that mean what their atoms mean keep the meaning of the formula. -/
theorem holds_substitute {q : Formula β} {truth' : β → Prop} (h : p.substitute f = .ok q)
    (hf : ∀ a ha r, f a ha = .ok r → (r.Holds truth' ↔ truth a)) :
    q.Holds truth' ↔ p.Holds truth := by
  induction p generalizing q with
  | atom a => exact hf a (List.mem_singleton_self a) q h
  | not p ih =>
      simp only [substitute, bind_eq_ok, pure_eq_ok] at h
      obtain ⟨p', hp, rfl⟩ := h
      rw [Holds, Holds, ih hp fun a ha => hf a ha]
  | and p q ihp ihq | or p q ihp ihq | xor p q ihp ihq =>
      simp only [substitute, bind_eq_ok, pure_eq_ok] at h
      obtain ⟨p', hp, q', hq, rfl⟩ := h
      rw [Holds, Holds, ihp hp fun a ha => hf a (List.mem_append_left _ ha),
        ihq hq fun a ha => hf a (List.mem_append_right _ ha)]

/-! ## Verdicts -/

theorem evaluate_map (f : α → β) (verdict : β → Verdict) (p : Formula α) :
    (p.map f).evaluate verdict = p.evaluate (verdict ∘ f) := by
  induction p with
  | atom a => rfl
  | not p ih => rw [map, evaluate, evaluate, ih]
  | and p q hp hq | or p q hp hq | xor p q hp hq => rw [map, evaluate, evaluate, hp, hq]

theorem evaluate_congr {verdict verdict' : α → Verdict} {p : Formula α}
    (h : ∀ a ∈ p.atoms, verdict a = verdict' a) : p.evaluate verdict = p.evaluate verdict' := by
  induction p with
  | atom a => exact h a (List.mem_singleton_self a)
  | not p ih => rw [evaluate, evaluate, ih h]
  | and p q hp hq | or p q hp hq | xor p q hp hq =>
      obtain ⟨hleft, hright⟩ := List.forall_mem_append.1 h
      rw [evaluate, evaluate, hp hleft, hq hright]

theorem agree_evaluate {verdict verdict' : α → Verdict} {p : Formula α}
    (h : ∀ a, (verdict a).Agree (verdict' a)) :
    (p.evaluate verdict).Agree (p.evaluate verdict') := by
  induction p with
  | atom a => exact h a
  | not p ih => exact ih.not
  | and p q hp hq => exact hp.and hq
  | or p q hp hq => exact hp.or hq
  | xor p q hp hq => exact hp.xor hq

end TemporalPattern.Formula
