import Mathlib.Order.Hom.Basic
import TemporalPattern.Comparison.Valuation

/-!
# The latest and the earliest of several instants

What an aggregate chooses is one of its arguments and dominates all of them.  From that follows how
the chosen instant compares with anything else: for the operators that dominance preserves it is
enough that one argument compares so, for their opposites every argument has to.
-/

namespace TemporalPattern

universe u

variable {D : Type u} [LinearOrder D]

/-! ## Relations -/

namespace Comparator

theorem relates_inverse (op : Comparator) (a b : D) :
    op.inverse.Relates a b ↔ ¬ op.Relates a b := by
  cases op <;> simp [inverse, Relates]

theorem relates_converse (op : Comparator) (a b : D) :
    op.converse.Relates b a ↔ op.Relates a b := by
  cases op <;> simp [converse, Relates, eq_comm]

/-- Instants relate as the integers they are. -/
theorem relates_instant (instant : Int ↪o D) (op : Comparator) (m n : Int) :
    op.Relates (instant m) (instant n) ↔ op.Relates m n := by
  cases op <;> simp [Relates]

end Comparator

/-! ## Selections -/

theorem mem_of_mem_selections {α : Type} {as : List α} {s : α × List α}
    (h : s ∈ selections as) : s.1 ∈ as ∧ ∀ b ∈ s.2, b ∈ as := by
  have hperm := perm_of_mem_selections h
  exact ⟨hperm.subset List.mem_cons_self, fun b hb => hperm.subset (List.mem_cons_of_mem _ hb)⟩

theorem mem_iff_of_mem_selections {α : Type} {as : List α} {s : α × List α}
    (h : s ∈ selections as) {b : α} : b ∈ as ↔ b = s.1 ∨ b ∈ s.2 := by
  rw [← (perm_of_mem_selections h).mem_iff, List.mem_cons]

namespace Aggregate

variable {choice : Aggregate}

/-! ## Dominance -/

theorem dominates_refl (choice : Aggregate) (a : D) : choice.dominates.Relates a a := by
  cases choice <;> exact le_refl a

theorem dominates_trans {a b c : D} (hab : choice.dominates.Relates a b)
    (hbc : choice.dominates.Relates b c) : choice.dominates.Relates a c := by
  cases choice with
  | max => exact le_trans hbc hab
  | min => exact le_trans hab hbc

/-- The choice is the only member that dominates all. -/
theorem choose_eq_iff {xs : List Int} (h : xs ≠ []) {m : Int} :
    choice.choose xs = m ↔ m ∈ xs ∧ ∀ x ∈ xs, choice.dominates.Relates m x := by
  cases choice with
  | max =>
      obtain ⟨n, hn⟩ := Option.isSome_iff_exists.1 (List.isSome_max?_of_ne_nil h)
      have hmax : max.choose xs = n := by rw [choose, hn, Option.getD_some]
      rw [hmax, ← Option.some_inj, ← hn, List.max?_eq_some_iff]
      rfl
  | min =>
      obtain ⟨n, hn⟩ := Option.isSome_iff_exists.1 (List.isSome_min?_of_ne_nil h)
      have hmin : min.choose xs = n := by rw [choose, hn, Option.getD_some]
      rw [hmin, ← Option.some_inj, ← hn, List.min?_eq_some_iff]
      rfl

theorem choose_mem (choice : Aggregate) {xs : List Int} (h : xs ≠ []) : choice.choose xs ∈ xs :=
  ((choose_eq_iff h).1 rfl).1

theorem choose_dominates (choice : Aggregate) {xs : List Int} {x : Int} (hx : x ∈ xs) :
    choice.dominates.Relates (choice.choose xs) x :=
  ((choose_eq_iff (List.ne_nil_of_mem hx)).1 rfl).2 x hx

@[simp] theorem choose_singleton (choice : Aggregate) (x : Int) : choice.choose [x] = x := by
  cases choice <;> rfl

/-- Neither order nor repetitions of the instants matter. -/
theorem choose_congr {xs ys : List Int} (h : ∀ x, x ∈ xs ↔ x ∈ ys) :
    choice.choose xs = choice.choose ys := by
  by_cases hys : ys = []
  · have hxs : xs = [] := List.eq_nil_iff_forall_not_mem.2 fun x hx => by simp [h, hys] at hx
    rw [hxs, hys]
  · have hxs : xs ≠ [] := by
      obtain ⟨y, hy⟩ := List.exists_mem_of_ne_nil ys hys
      exact List.ne_nil_of_mem ((h y).2 hy)
    rw [choose_eq_iff hxs, h]
    exact ⟨choose_mem choice hys, fun x hx => choose_dominates choice ((h x).1 hx)⟩

/-! ## Choosing among words -/

/-- Words are chosen as the integers they stand for. -/
theorem choose_of_choose? {times : List Millis} {m : Millis} (h : choice.choose? times = some m) :
    choice.choose (times.map Int64.toInt) = m.toInt := by
  cases times with
  | nil => cases choice <;> simp [choose?] at h
  | cons t ts =>
      cases choice with
      | max =>
          rw [choose?, List.max?_cons', Option.some_inj] at h
          rw [choose, List.map_cons, List.max?_cons', Option.getD_some, List.foldl_map, ← h]
          exact List.foldl_hom Int64.toInt fun s t => (Millis.toInt_max s t).symm
      | min =>
          rw [choose?, List.min?_cons', Option.some_inj] at h
          rw [choose, List.map_cons, List.min?_cons', Option.getD_some, List.foldl_map, ← h]
          exact List.foldl_hom Int64.toInt fun s t => (Millis.toInt_min s t).symm

theorem ne_nil_of_choose? {times : List Millis} {m : Millis} (h : choice.choose? times = some m) :
    times ≠ [] := by
  rintro rfl
  cases choice <;> simp [choose?] at h

theorem choose?_mem {times : List Millis} {m : Millis} (h : choice.choose? times = some m) :
    m ∈ times := by
  have hne : times.map Int64.toInt ≠ [] := by simpa using ne_nil_of_choose? h
  have hmem := choose_mem choice hne
  rw [choose_of_choose? h] at hmem
  obtain ⟨t, ht, htm⟩ := List.mem_map.1 hmem
  rwa [← Int64.toInt_inj.1 htm]

theorem choose?_dominates {times : List Millis} {m t : Millis}
    (h : choice.choose? times = some m) (ht : t ∈ times) :
    choice.dominates.Relates m.toInt t.toInt := by
  rw [← choose_of_choose? h]
  exact choose_dominates choice (List.mem_map_of_mem ht)

/-! ## Comparing the choice -/

/-- What holds of an argument holds of everything that dominates it. -/
theorem relates_of_dominates {op : Comparator} (h : choice.isExistential op) {a b c : D}
    (hab : choice.dominates.Relates a b) (hbc : op.Relates b c) : op.Relates a c := by
  cases choice <;> cases op <;> simp only [isExistential, Bool.false_eq_true] at h
  case max.gt => exact lt_of_lt_of_le hbc hab
  case max.gte => exact le_trans hbc hab
  case min.lt => exact lt_of_le_of_lt hab hbc
  case min.lte => exact le_trans hab hbc

/-- Of a comparison by order and its opposite, one has to hold of some argument and the other of
all. -/
theorem isExistential_inverse (choice : Aggregate) {op : Comparator} (heq : op ≠ .eq)
    (hneq : op ≠ .neq) : choice.isExistential op.inverse = !choice.isExistential op := by
  cases choice <;> cases op <;> trivial

variable {instant : Int ↪o D} {α : Type} {as : List α} {g : α → Int} {y : D}

theorem relates_choose_iff_exists {op : Comparator} (h : choice.isExistential op) (has : as ≠ []) :
    op.Relates (instant (choice.choose (as.map g))) y ↔
      ∃ a ∈ as, op.Relates (instant (g a)) y := by
  constructor
  · intro hy
    have hne : as.map g ≠ [] := by simpa using has
    obtain ⟨a, ha, hchoice⟩ := List.mem_map.1 (choose_mem choice hne)
    exact ⟨a, ha, by rwa [hchoice]⟩
  · rintro ⟨a, ha, hy⟩
    have hdom := choose_dominates choice (List.mem_map_of_mem (f := g) ha)
    exact relates_of_dominates h ((Comparator.relates_instant instant _ _ _).2 hdom) hy

theorem relates_choose_iff_forall {op : Comparator} (heq : op ≠ .eq) (hneq : op ≠ .neq)
    (h : ¬ choice.isExistential op) (has : as ≠ []) :
    op.Relates (instant (choice.choose (as.map g))) y ↔
      ∀ a ∈ as, op.Relates (instant (g a)) y := by
  have hopposite : choice.isExistential op.inverse := by
    rw [isExistential_inverse choice heq hneq, eq_false_of_ne_true h]
    rfl
  have hinverse : op.inverse.Relates (instant (choice.choose (as.map g))) y ↔
      ∃ a ∈ as, op.inverse.Relates (instant (g a)) y :=
    relates_choose_iff_exists hopposite has
  simp only [Comparator.relates_inverse] at hinverse
  rw [← not_iff_not, hinverse]
  push Not
  rfl

/-- The choice equals something if an argument does that dominates the others. -/
theorem choose_eq_iff_exists_selection (has : as ≠ []) :
    instant (choice.choose (as.map g)) = y ↔
      ∃ s ∈ selections as, instant (g s.1) = y ∧
        ∀ b ∈ s.2, choice.dominates.Relates (g s.1) (g b) := by
  have hne : as.map g ≠ [] := by simpa using has
  constructor
  · intro hy
    obtain ⟨a, ha, hchoice⟩ := List.mem_map.1 (choose_mem choice hne)
    obtain ⟨bs, hbs⟩ := exists_mem_selections ha
    refine ⟨(a, bs), hbs, by rwa [hchoice], ?_⟩
    intro b hb
    rw [hchoice]
    exact choose_dominates choice (List.mem_map_of_mem ((mem_of_mem_selections hbs).2 b hb))
  · rintro ⟨s, hs, hy, hdom⟩
    have hchoice : choice.choose (as.map g) = g s.1 := by
      rw [choose_eq_iff hne]
      refine ⟨List.mem_map_of_mem (mem_of_mem_selections hs).1, ?_⟩
      rintro _ hx
      obtain ⟨b, hb, rfl⟩ := List.mem_map.1 hx
      rcases (mem_iff_of_mem_selections hs).1 hb with rfl | hb
      · exact dominates_refl choice (g s.1)
      · exact hdom b hb
    rw [hchoice, hy]

end Aggregate
end TemporalPattern
