import TemporalPattern.Proofs.Extremes
import TemporalPattern.Proofs.Result
import TemporalPattern.TimePoint.Bounds

/-!
# Bounds contain what they bound

Values within given bounds give results within the computed ones.  Lengths and shifts need more:
where a lower bound is computed, the result must not lie below all words, and a start of a length
must not be negative if it counts as such and no lower bound of it is known.
-/

namespace TemporalPattern.Bounds

/-- Whether a value lies within the known bounds. -/
structure Contains (b : Bounds) (x : Int) : Prop where
  lower : ∀ l ∈ b.lower, l.toInt ≤ x
  upper : ∀ u ∈ b.upper, x ≤ u.toInt

/-! ## Single values -/

theorem contains_unknown (x : Int) : unknown.Contains x where
  lower := by simp [unknown]
  upper := by simp [unknown]

theorem eq_of_mem_finite? {time u : Millis} (h : u ∈ finite? time) : u = time := by
  unfold finite? at h
  split at h
  case isTrue => simp at h
  case isFalse => exact (Option.mem_some_iff.1 h).symm

theorem ne_of_mem_finite? {time u : Millis} (h : u ∈ finite? time) : u ≠ Int64.maxValue := by
  obtain rfl := eq_of_mem_finite? h
  unfold finite? at h
  split at h
  case isTrue => simp at h
  case isFalse hne => exact hne

/-- Capping takes the upper bound for a lower one that is above it. -/
theorem of_mem_lower_capped {lower upper : Option Millis} {l : Millis}
    (h : l ∈ (capped lower upper).lower) :
    (l ∈ lower ∨ l ∈ upper) ∧ ∃ l' ∈ lower, l.toInt ≤ l'.toInt := by
  cases lower with
  | none => simp [capped] at h
  | some l' =>
      cases upper with
      | none =>
          obtain rfl := Option.mem_some_iff.1 h
          exact ⟨.inl rfl, l', rfl, le_refl _⟩
      | some u =>
          have hmin : min l' u = l := Option.mem_some_iff.1 h
          have hcases : min l' u = if l' ≤ u then l' else u := rfl
          refine ⟨?_, l', rfl, ?_⟩
          · by_cases hle : l' ≤ u
            · rw [if_pos hle, hmin] at hcases
              exact .inl (Option.mem_some_iff.2 hcases.symm)
            · rw [if_neg hle, hmin] at hcases
              exact .inr (Option.mem_some_iff.2 hcases.symm)
          · rw [← hmin, Millis.toInt_min]
            omega

theorem contains_capped {lower upper : Option Millis} {x : Int}
    (hlower : ∀ l ∈ lower, l.toInt ≤ x) (hupper : ∀ u ∈ upper, x ≤ u.toInt) :
    (capped lower upper).Contains x where
  lower := by
    intro l hl
    obtain ⟨-, l', hl', hle⟩ := of_mem_lower_capped hl
    calc l.toInt ≤ l'.toInt := hle
      _ ≤ x := hlower l' hl'
  upper := hupper

theorem contains_exact (time : Millis) : (exact time).Contains time.toInt := by
  apply contains_capped
  · intro l hl
    rw [Option.mem_some_iff.1 hl]
  · intro u hu
    rw [eq_of_mem_finite? hu]

/-! ## Aggregates -/

section

variable (choice : Aggregate) {bs : List Bounds} {side : Bounds → Option Millis} {m : Millis}

/-- A bound chosen among those that are known is one of them. -/
theorem exists_of_choose?_filterMap (h : choice.choose? (bs.filterMap side) = some m) :
    ∃ b ∈ bs, m ∈ side b :=
  List.mem_filterMap.1 (Aggregate.choose?_mem h)

/-- A bound chosen among those of all is one of them. -/
theorem exists_of_choose?_mapM (h : (bs.mapM side).bind choice.choose? = some m) :
    ∃ b ∈ bs, m ∈ side b := by
  obtain ⟨xs, hxs, hm⟩ := Option.bind_eq_some_iff.1 h
  rw [mapM_eq_some] at hxs
  have hmem : some m ∈ bs.map side := hxs ▸ List.mem_map_of_mem (Aggregate.choose?_mem hm)
  exact List.mem_map.1 hmem

theorem dominates_of_choose?_mapM (h : (bs.mapM side).bind choice.choose? = some m) {b : Bounds}
    (hb : b ∈ bs) : ∃ x ∈ side b, choice.dominates.Relates m.toInt x.toInt := by
  obtain ⟨xs, hxs, hm⟩ := Option.bind_eq_some_iff.1 h
  rw [mapM_eq_some] at hxs
  have hmem : side b ∈ xs.map some := hxs ▸ List.mem_map_of_mem hb
  obtain ⟨x, hx, hxb⟩ := List.mem_map.1 hmem
  exact ⟨x, hxb.symm, Aggregate.choose?_dominates hm hx⟩

end

variable {α : Type} {as : List α} {f : α → Bounds} {g : α → Int} (choice : Aggregate)
  {side : Bounds → Option Millis} {m : Millis}

/-- What is known of one value on the side of the choice holds of the chosen one. -/
theorem choose_dominates_of_filterMap (h : choice.choose? ((as.map f).filterMap side) = some m)
    (hside : ∀ a ∈ as, ∀ x ∈ side (f a), choice.dominates.Relates (g a) x.toInt) :
    choice.dominates.Relates (choice.choose (as.map g)) m.toInt := by
  obtain ⟨b, hb, hm⟩ := exists_of_choose?_filterMap choice h
  obtain ⟨a, ha, rfl⟩ := List.mem_map.1 hb
  have hchoice : choice.dominates.Relates (choice.choose (as.map g)) (g a) :=
    Aggregate.choose_dominates choice (List.mem_map_of_mem ha)
  exact Aggregate.dominates_trans hchoice (hside a ha m hm)

/-- On the other side it has to be known of all values, since any of them may be chosen. -/
theorem dominates_choose_of_mapM (h : ((as.map f).mapM side).bind choice.choose? = some m)
    (hside : ∀ a ∈ as, ∀ x ∈ side (f a), choice.dominates.Relates x.toInt (g a)) :
    choice.dominates.Relates m.toInt (choice.choose (as.map g)) := by
  have hne : as.map g ≠ [] := by
    obtain ⟨b, hb, -⟩ := exists_of_choose?_mapM choice h
    obtain ⟨a, ha, -⟩ := List.mem_map.1 hb
    exact List.ne_nil_of_mem (List.mem_map_of_mem ha)
  obtain ⟨a, ha, hchoice⟩ := List.mem_map.1 (Aggregate.choose_mem choice hne)
  obtain ⟨x, hx, hmx⟩ := dominates_of_choose?_mapM choice h (List.mem_map_of_mem ha)
  rw [← hchoice]
  exact Aggregate.dominates_trans hmx (hside a ha x hx)

theorem contains_aggregate (h : ∀ a ∈ as, (f a).Contains (g a)) :
    (choice.bounds (as.map f)).Contains (choice.choose (as.map g)) := by
  have hlower : ∀ a ∈ as, ∀ l ∈ (f a).lower, l.toInt ≤ g a := fun a ha => (h a ha).lower
  have hupper : ∀ a ∈ as, ∀ u ∈ (f a).upper, g a ≤ u.toInt := fun a ha => (h a ha).upper
  cases choice with
  | max =>
      apply contains_capped
      · intro l hl
        exact choose_dominates_of_filterMap .max hl hlower
      · intro u hu
        exact dominates_choose_of_mapM .max hu hupper
  | min =>
      apply contains_capped
      · intro l hl
        exact dominates_choose_of_mapM .min hl hlower
      · intro u hu
        exact choose_dominates_of_filterMap .min hu hupper

/-! ## Order of bounds -/

/-- The lower bound, if there is one, is not above the upper one. -/
def Ordered (b : Bounds) : Prop :=
  ∀ l ∈ b.lower, ∀ u ∈ b.upper, l.toInt ≤ u.toInt

theorem ordered_unknown : unknown.Ordered := by
  simp [Ordered, unknown]

theorem ordered_capped (lower upper : Option Millis) : (capped lower upper).Ordered := by
  intro l hl u hu
  cases lower with
  | none => simp [capped] at hl
  | some l' =>
      obtain rfl : upper = some u := hu
      have hmin : min l' u = l := Option.mem_some_iff.1 hl
      rw [← hmin, Millis.toInt_min]
      exact Int.min_le_right _ _

theorem ordered_aggregate (choice : Aggregate) (bs : List Bounds) : (choice.bounds bs).Ordered := by
  cases choice <;> exact ordered_capped _ _

/-! ## Where bounds come from -/

/-- A property of the bounds that are known. -/
structure All (good : Millis → Prop) (b : Bounds) : Prop where
  lower : ∀ l ∈ b.lower, good l
  upper : ∀ u ∈ b.upper, good u

section

variable {good : Millis → Prop}

theorem all_unknown : unknown.All good where
  lower := by simp [unknown]
  upper := by simp [unknown]

theorem all_capped {lower upper : Option Millis} (hlower : ∀ l ∈ lower, good l)
    (hupper : ∀ u ∈ upper, good u) : (capped lower upper).All good where
  lower := by
    intro l hl
    rcases (of_mem_lower_capped hl).1 with hl | hl
    · exact hlower l hl
    · exact hupper l hl
  upper := hupper

theorem all_exact {time : Millis} (h : good time) : (exact time).All good := by
  apply all_capped
  · intro l hl
    rwa [← Option.mem_some_iff.1 hl]
  · intro u hu
    rwa [eq_of_mem_finite? hu]

theorem all_aggregate (choice : Aggregate) {bs : List Bounds} (h : ∀ b ∈ bs, b.All good) :
    (choice.bounds bs).All good := by
  cases choice with
  | max =>
      apply all_capped
      · intro l hl
        obtain ⟨b, hb, hlb⟩ := exists_of_choose?_filterMap .max hl
        exact (h b hb).lower l hlb
      · intro u hu
        obtain ⟨b, hb, hub⟩ := exists_of_choose?_mapM .max hu
        exact (h b hb).upper u hub
  | min =>
      apply all_capped
      · intro l hl
        obtain ⟨b, hb, hlb⟩ := exists_of_choose?_mapM .min hl
        exact (h b hb).lower l hlb
      · intro u hu
        obtain ⟨b, hb, hub⟩ := exists_of_choose?_filterMap .min hu
        exact (h b hb).upper u hub

end

/-! ## Lengths -/

theorem isSome_lower_capped (lower upper : Option Millis) :
    (capped lower upper).lower.isSome = lower.isSome := by
  cases lower <;> cases upper <;> rfl

section

variable {startMayBeNegative : Bool} {start stop : Bounds} {x y : Int}

theorem exists_of_lower_difference
    (h : (difference startMayBeNegative start stop).lower.isSome) :
    ∃ l u, l ∈ stop.lower ∧ u ∈ start.upper := by
  rw [difference, isSome_lower_capped, Option.isSome_iff_exists] at h
  simpa [Option.bind_eq_some_iff] using h

theorem eq_false_of_upper_difference
    (h : (difference startMayBeNegative start stop).upper.isSome) (hlower : start.lower = none) :
    startMayBeNegative = false := by
  cases startMayBeNegative with
  | false => rfl
  | true => simp [difference, capped, hlower] at h

/-- The exact bounds of a length.  Only the lower one is brought back into a word, so the length
must not lie below all words where it is known. -/
theorem contains_difference (hx : start.Contains x) (hy : stop.Contains y)
    (hleast : (difference startMayBeNegative start stop).lower.isSome → Millis.least ≤ y - x)
    (hsign : (difference startMayBeNegative start stop).upper.isSome → start.lower = none →
      0 ≤ x) :
    (difference startMayBeNegative start stop).Contains (y - x) := by
  rw [difference, isSome_lower_capped] at hleast
  apply contains_capped
  · intro l hl
    -- a difference below all words is raised to the least one, but not above `y - x`
    have hword := hleast (Option.isSome_of_mem hl)
    simp only [Option.mem_def, Option.bind_eq_bind, Option.bind_eq_some_iff, Option.pure_def,
      Option.some.injEq] at hl
    obtain ⟨b, hb, a, ha, rfl⟩ := hl
    have hya : b.toInt ≤ y := hy.lower b hb
    have hxa : x ≤ a.toInt := hx.upper a ha
    rw [Millis.toInt_clamp]
    omega
  · intro u hu
    have hknown := hsign (Option.isSome_of_mem hu)
    simp only [Option.mem_def, Option.bind_eq_bind, Option.bind_eq_some_iff] at hu
    obtain ⟨b, hb, a, ha, w, hw, hu⟩ := hu
    obtain rfl := eq_of_mem_finite? hu
    have hyb : y ≤ b.toInt := hy.upper b hb
    have hax : a.toInt ≤ x := by
      cases hlower : start.lower with
      | some l =>
          rw [hlower] at ha
          obtain rfl := Option.some.inj ha
          exact hx.lower l hlower
      | none =>
          rw [hlower] at ha
          cases startMayBeNegative with
          | true => simp at ha
          | false =>
              obtain rfl := Option.some.inj ha
              exact hknown hlower
    rw [Millis.ofInt?_eq_some_iff.1 hw]
    omega

end

theorem contains_shift {length : Millis} {b : Bounds} {x : Int} (hx : b.Contains x)
    (hleast : (shift length b).lower.isSome → Millis.least ≤ x + length.toInt) :
    (shift length b).Contains (x + length.toInt) := by
  rw [shift, isSome_lower_capped] at hleast
  apply contains_capped
  · intro l hl
    have hword := hleast (Option.isSome_of_mem hl)
    obtain ⟨l', hl', rfl⟩ := Option.map_eq_some_iff.1 hl
    have hxl : l'.toInt ≤ x := hx.lower l' hl'
    rw [Millis.toInt_clamp]
    omega
  · intro u hu
    obtain ⟨u', hu', hlater⟩ := Option.bind_eq_some_iff.1 hu
    have hxu : x ≤ u'.toInt := hx.upper u' hu'
    -- a sum above all words is lowered to the greatest one, which is not used as an upper bound
    have hgreatest : u.toInt ≠ Millis.greatest := by
      intro h
      exact ne_of_mem_finite? hlater (Int64.toInt_inj.1 h)
    rw [eq_of_mem_finite? hlater, Millis.toInt_clamp] at hgreatest ⊢
    have hwords : Millis.least ≤ Millis.greatest := by decide
    omega

end TemporalPattern.Bounds
