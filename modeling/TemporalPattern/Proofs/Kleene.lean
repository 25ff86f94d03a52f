import Mathlib.Data.List.Basic
import TemporalPattern.Logic.Verdict

/-!
# Kleene algebra of verdicts

Verdicts form a distributive lattice with false below open below true, and negation turns it over.
The laws below are the part of it that lists of verdicts need.
-/

namespace TemporalPattern.Verdict

@[simp] theorem true_and (v : Verdict) : and (some true) v = v := by
  rcases v with _ | ⟨_ | _⟩ <;> rfl

@[simp] theorem false_or (v : Verdict) : or (some false) v = v := by
  rcases v with _ | ⟨_ | _⟩ <;> rfl

@[simp] theorem true_or (v : Verdict) : or (some true) v = some true := by
  rcases v with _ | ⟨_ | _⟩ <;> rfl

@[simp] theorem or_true (v : Verdict) : or v (some true) = some true := by
  rcases v with _ | ⟨_ | _⟩ <;> rfl

@[simp] theorem and_true (v : Verdict) : and v (some true) = v := by
  rcases v with _ | ⟨_ | _⟩ <;> rfl

@[simp] theorem or_false (v : Verdict) : or v (some false) = v := by
  rcases v with _ | ⟨_ | _⟩ <;> rfl

theorem and_assoc (u v w : Verdict) : and (and u v) w = and u (and v w) := by
  rcases u with _ | ⟨_ | _⟩ <;> rcases v with _ | ⟨_ | _⟩ <;> rcases w with _ | ⟨_ | _⟩ <;> rfl

theorem or_assoc (u v w : Verdict) : or (or u v) w = or u (or v w) := by
  rcases u with _ | ⟨_ | _⟩ <;> rcases v with _ | ⟨_ | _⟩ <;> rcases w with _ | ⟨_ | _⟩ <;> rfl

theorem or_and (u v w : Verdict) : or u (and v w) = and (or u v) (or u w) := by
  rcases u with _ | ⟨_ | _⟩ <;> rcases v with _ | ⟨_ | _⟩ <;> rcases w with _ | ⟨_ | _⟩ <;> rfl

theorem and_or (u v w : Verdict) : or (and u v) w = and (or u w) (or v w) := by
  rcases u with _ | ⟨_ | _⟩ <;> rcases v with _ | ⟨_ | _⟩ <;> rcases w with _ | ⟨_ | _⟩ <;> rfl

theorem not_xor (v w : Verdict) : not (xor v w) = or (and v w) (and (not v) (not w)) := by
  rcases v with _ | ⟨_ | _⟩ <;> rcases w with _ | ⟨_ | _⟩ <;> rfl

theorem xor_not_not (v w : Verdict) : xor (not v) (not w) = xor v w := by
  rcases v with _ | ⟨_ | _⟩ <;> rcases w with _ | ⟨_ | _⟩ <;> rfl

theorem not_eq_some {v : Verdict} {b : Bool} : not v = some b ↔ v = some !b := by
  rcases v with _ | ⟨_ | _⟩ <;> cases b <;> simp [not]

theorem and_eq_true {v w : Verdict} : and v w = some true ↔ v = some true ∧ w = some true := by
  rcases v with _ | ⟨_ | _⟩ <;> rcases w with _ | ⟨_ | _⟩ <;> decide

theorem and_eq_false {v w : Verdict} : and v w = some false ↔ v = some false ∨ w = some false := by
  rcases v with _ | ⟨_ | _⟩ <;> rcases w with _ | ⟨_ | _⟩ <;> decide

theorem or_eq_true {v w : Verdict} : or v w = some true ↔ v = some true ∨ w = some true := by
  rcases v with _ | ⟨_ | _⟩ <;> rcases w with _ | ⟨_ | _⟩ <;> decide

theorem or_eq_false {v w : Verdict} : or v w = some false ↔ v = some false ∧ w = some false := by
  rcases v with _ | ⟨_ | _⟩ <;> rcases w with _ | ⟨_ | _⟩ <;> decide

/-! ## Agreement -/

namespace Agree

variable {v v' w w' : Verdict}

theorem refl (v : Verdict) : Agree v v := by
  rintro b rfl
  cases b <;> decide

theorem not (h : Agree v w) : Agree v.not w.not := by
  intro b hv hw
  rw [not_eq_some] at hv hw
  exact h _ hv hw

theorem and (h : Agree v w) (h' : Agree v' w') : Agree (v.and v') (w.and w') := by
  intro b hv hw
  cases b with
  | true =>
      obtain ⟨hv, hv'⟩ := and_eq_true.1 hv
      rcases and_eq_false.1 hw with hw | hw'
      · exact h true hv hw
      · exact h' true hv' hw'
  | false =>
      obtain ⟨hw, hw'⟩ := and_eq_true.1 hw
      rcases and_eq_false.1 hv with hv | hv'
      · exact h false hv hw
      · exact h' false hv' hw'

theorem or (h : Agree v w) (h' : Agree v' w') : Agree (v.or v') (w.or w') := by
  have hand := (h.not.and h'.not).not
  rwa [not_and, not_not, not_not, not_and, not_not, not_not] at hand

theorem xor (h : Agree v w) (h' : Agree v' w') : Agree (v.xor v') (w.xor w') := by
  rw [xor_eq, xor_eq]
  exact (h.and h'.not).or (h.not.and h')

end Agree

/-! ## Lists of verdicts -/

theorem all_append (vs ws : List Verdict) : all (vs ++ ws) = and (all vs) (all ws) := by
  induction vs with
  | nil => rw [List.nil_append, all_nil, true_and]
  | cons v vs ih => rw [List.cons_append, all_cons, all_cons, ih, and_assoc]

theorem any_append (vs ws : List Verdict) : any (vs ++ ws) = or (any vs) (any ws) := by
  induction vs with
  | nil => rw [List.nil_append, any_nil, false_or]
  | cons v vs ih => rw [List.cons_append, any_cons, any_cons, ih, or_assoc]

/-- A disjunction distributes over a conjunction of any length. -/
theorem or_all (v : Verdict) (ws : List Verdict) : or v (all ws) = all (ws.map (or v)) := by
  induction ws with
  | nil => rw [List.map_nil, all_nil, or_true]
  | cons w ws ih => rw [List.map_cons, all_cons, all_cons, or_and, ih]

theorem all_eq_true {vs : List Verdict} : all vs = some true ↔ ∀ v ∈ vs, v = some true := by
  induction vs with
  | nil => simp
  | cons v vs ih => rw [all_cons, and_eq_true, ih, List.forall_mem_cons]

theorem all_eq_false {vs : List Verdict} : all vs = some false ↔ ∃ v ∈ vs, v = some false := by
  induction vs with
  | nil => simp
  | cons v vs ih => rw [all_cons, and_eq_false, ih, List.exists_mem_cons_iff]

theorem any_eq_true {vs : List Verdict} : any vs = some true ↔ ∃ v ∈ vs, v = some true := by
  induction vs with
  | nil => simp
  | cons v vs ih => rw [any_cons, or_eq_true, ih, List.exists_mem_cons_iff]

theorem any_eq_false {vs : List Verdict} : any vs = some false ↔ ∀ v ∈ vs, v = some false := by
  induction vs with
  | nil => simp
  | cons v vs ih => rw [any_cons, or_eq_false, ih, List.forall_mem_cons]

/-- Neither order nor repetitions in a list of verdicts matter. -/
theorem all_congr {vs ws : List Verdict} (h : ∀ v, v ∈ vs ↔ v ∈ ws) : all vs = all ws := by
  apply Option.ext
  intro b
  cases b with
  | true => simp only [all_eq_true, h]
  | false => simp only [all_eq_false, h]

theorem any_congr {vs ws : List Verdict} (h : ∀ v, v ∈ vs ↔ v ∈ ws) : any vs = any ws := by
  apply Option.ext
  intro b
  cases b with
  | true => simp only [any_eq_true, h]
  | false => simp only [any_eq_false, h]

theorem all_perm {vs ws : List Verdict} (h : vs.Perm ws) : all vs = all ws :=
  all_congr fun _ => h.mem_iff

theorem any_perm {vs ws : List Verdict} (h : vs.Perm ws) : any vs = any ws :=
  any_congr fun _ => h.mem_iff

theorem all_cons_of_mem {v : Verdict} {vs : List Verdict} (h : v ∈ vs) :
    all (v :: vs) = all vs := by
  apply all_congr
  intro w
  rw [List.mem_cons]
  exact or_iff_right_of_imp fun hw => hw ▸ h

theorem any_cons_of_mem {v : Verdict} {vs : List Verdict} (h : v ∈ vs) :
    any (v :: vs) = any vs := by
  apply any_congr
  intro w
  rw [List.mem_cons]
  exact or_iff_right_of_imp fun hw => hw ▸ h

end TemporalPattern.Verdict
