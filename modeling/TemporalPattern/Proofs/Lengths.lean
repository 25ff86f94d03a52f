import TemporalPattern.Proofs.Result
import TemporalPattern.Time.Exact

/-!
# Lengths of time that fit

A length is given by its units exactly if none of them is out of range and their sum fits.  Lengths
are never negative, so no sum on the way is greater than the last one, and it does not matter where
overflow is looked for.
-/

namespace TemporalPattern

/-! ## Sums -/

namespace Millis

theorem exists_toInt_eq {n : Int} :
    (∃ t : Millis, t.toInt = n) ↔ least ≤ n ∧ n ≤ greatest := by
  constructor
  · rintro ⟨t, rfl⟩
    exact ⟨least_le_toInt t, toInt_le_greatest t⟩
  · rintro ⟨hleast, hgreatest⟩
    exact ⟨.ofInt n, toInt_ofInt_of_fits hleast hgreatest⟩

theorem exists_toInt_eq_of_nonneg {n : Int} (hn : 0 ≤ n) :
    (∃ t : Millis, t.toInt = n) ↔ n ≤ greatest := by
  have hleast : least ≤ 0 := by decide
  rw [exists_toInt_eq, and_iff_right (Int.le_trans hleast hn)]

variable {terms : List Millis} {s sum : Millis}

theorem exactSum_nonneg (h : ∀ t ∈ terms, 0 ≤ t.toInt) : 0 ≤ exactSum terms := by
  induction terms with
  | nil => exact Int.le_refl 0
  | cons t ts ih =>
      rw [List.forall_mem_cons] at h
      exact Int.add_nonneg h.1 (ih h.2)

/-- No sum on the way differs from the exact one. -/
theorem toInt_of_foldlM_add? (h : terms.foldlM add? s = some sum) :
    sum.toInt = s.toInt + exactSum terms := by
  induction terms generalizing s with
  | nil =>
      obtain rfl := Option.some.inj h
      exact (Int.add_zero _).symm
  | cons t ts ih =>
      rw [List.foldlM_cons, Option.bind_eq_bind, Option.bind_eq_some_iff] at h
      obtain ⟨next, hnext, hrest⟩ := h
      rw [ih hrest, add?_eq_some_iff.1 hnext]
      exact Int.add_assoc ..

theorem toInt_of_sum? (h : sum? terms = some sum) : sum.toInt = exactSum terms :=
  (toInt_of_foldlM_add? h).trans (Int.zero_add _)

/-- If words can be added, every sum on the way is there. -/
theorem exists_sum?_take (h : sum? terms = some sum) (count : Nat) :
    ∃ first, sum? (terms.take count) = some first := by
  rw [sum?, ← List.take_append_drop count terms, List.foldlM_append, Option.bind_eq_bind,
    Option.bind_eq_some_iff] at h
  obtain ⟨first, hfirst, -⟩ := h
  exact ⟨first, hfirst⟩

/-- Sums of what is not negative only grow, so all of them fit if the last one does. -/
theorem foldlM_add?_eq_some (hterms : ∀ t ∈ terms, 0 ≤ t.toInt)
    (hsum : sum.toInt = s.toInt + exactSum terms) : terms.foldlM add? s = some sum := by
  induction terms generalizing s with
  | nil =>
      have hs : sum.toInt = s.toInt := hsum.trans (Int.add_zero _)
      rw [Int64.toInt_inj.1 hs]
      rfl
  | cons t ts ih =>
      rw [List.forall_mem_cons] at hterms
      have hsum' : sum.toInt = s.toInt + t.toInt + exactSum ts :=
        hsum.trans (Int.add_assoc ..).symm
      have hrest := exactSum_nonneg hterms.2
      have hleast := least_le_toInt s
      have hgreatest := toInt_le_greatest sum
      -- the next sum lies between the one so far and the last one
      obtain ⟨next, hnext⟩ : ∃ next : Millis, next.toInt = s.toInt + t.toInt :=
        exists_toInt_eq.2 (by omega)
      rw [List.foldlM_cons, add?_eq_some_iff.2 hnext]
      exact ih hterms.2 (by rw [hnext, hsum'])

theorem sum?_eq_some_iff (hterms : ∀ t ∈ terms, 0 ≤ t.toInt) :
    sum? terms = some sum ↔ sum.toInt = exactSum terms :=
  ⟨toInt_of_sum?, fun h => foldlM_add?_eq_some hterms (h.trans (Int.zero_add _).symm)⟩

end Millis

/-! ## Units -/

namespace TimeUnit

variable {unit : TimeUnit} {amount limit : Int64} {length : Millis}

theorem duration_eq_ok :
    unit.duration amount = .ok length ↔
      0 ≤ amount.toInt ∧ length.toInt = amount.toInt * unit.size.toInt := by
  unfold duration
  split
  case isTrue hnegative =>
    have hneg : amount.toInt < 0 := Int64.lt_iff_toInt_lt.1 hnegative
    exact iff_of_false (by simp) fun h => Int.not_le.2 hneg h.1
  case isFalse hnegative =>
    have hnonneg : 0 ≤ amount.toInt := Int.not_lt.1 fun h => hnegative (Int64.lt_iff_toInt_lt.2 h)
    rw [← Millis.ofInt?_eq_some_iff, and_iff_right hnonneg]
    split <;> simp_all

theorem exists_duration_iff :
    (∃ length, unit.duration amount = .ok length) ↔
      0 ≤ amount.toInt ∧ amount.toInt * unit.size.toInt ≤ Millis.greatest := by
  simp only [duration_eq_ok, exists_and_left]
  refine and_congr_right fun hamount => Millis.exists_toInt_eq_of_nonneg ?_
  have hsize : 0 ≤ unit.size.toInt := by cases unit <;> decide
  exact Int.mul_nonneg hamount hsize

theorem durationUpTo_eq_ok :
    unit.durationUpTo limit amount = .ok length ↔
      (0 ≤ amount.toInt ∧ amount.toInt ≤ limit.toInt) ∧
        length.toInt = amount.toInt * unit.size.toInt := by
  have hwords : 0 ≤ amount ∧ amount ≤ limit ↔ 0 ≤ amount.toInt ∧ amount.toInt ≤ limit.toInt :=
    and_congr Int64.le_iff_toInt_le Int64.le_iff_toInt_le
  unfold durationUpTo
  split
  case isTrue hrange =>
    rw [hwords] at hrange
    rw [duration_eq_ok, and_iff_right hrange.1, and_iff_right hrange]
  case isFalse hrange =>
    rw [hwords] at hrange
    exact iff_of_false (by simp) fun h => hrange h.1

end TimeUnit

/-! ## Components -/

namespace Components

variable {c : Components} {length : Millis} {parts : List Millis}

/-- Every component in range has its length, unless the days are too many. -/
theorem parts_eq_ok : c.parts = .ok parts ↔ c.InRange ∧ parts.map Int64.toInt = c.exactParts := by
  have hday : TimeUnit.days.size.toInt = 86400000 := rfl
  have hhour : TimeUnit.hours.size.toInt = 3600000 := rfl
  have hminute : TimeUnit.minutes.size.toInt = 60000 := rfl
  have hsecond : TimeUnit.seconds.size.toInt = 1000 := rfl
  have hmilli : TimeUnit.millis.size.toInt = 1 := rfl
  unfold Components.parts
  simp only [bind_eq_ok, TimeUnit.duration_eq_ok, TimeUnit.durationUpTo_eq_ok, hday, hhour,
    hminute, hsecond, hmilli, pure_eq_ok]
  constructor
  · rintro ⟨d, ⟨hdays, hd⟩, h, ⟨hhours, hh⟩, m, ⟨hminutes, hm⟩, s, ⟨hseconds, hs⟩, ms,
      ⟨hmillis, hms⟩, rfl⟩
    refine ⟨⟨hdays, hhours, hminutes, hseconds, hmillis⟩, ?_⟩
    simp only [exactParts, List.map_cons, List.map_nil, hd, hh, hm, hs, hms, Int.mul_comm,
      Int.mul_one]
  · rintro ⟨⟨hdays, hhours, hminutes, hseconds, hmillis⟩, hparts⟩
    simp only [exactParts, List.map_eq_cons_iff, List.map_eq_nil_iff] at hparts
    obtain ⟨d, _, rfl, hd, h, _, rfl, hh, m, _, rfl, hm, s, _, rfl, hs, ms, _, rfl, hms, rfl⟩ :=
      hparts
    refine ⟨d, ⟨hdays, ?_⟩, h, ⟨hhours, ?_⟩, m, ⟨hminutes, ?_⟩, s, ⟨hseconds, ?_⟩, ms,
      ⟨hmillis, ?_⟩, rfl⟩ <;> omega

theorem exactSum_parts (h : parts.map Int64.toInt = c.exactParts) :
    Millis.exactSum parts = c.total := by
  have hsum : Millis.exactSum parts = (parts.map Int64.toInt).foldr (· + ·) 0 :=
    List.foldr_map.symm
  rw [hsum, h]
  simp only [exactParts, List.foldr_cons, List.foldr_nil, total]
  omega

/-- No part is negative, and so none is longer than the whole. -/
theorem exactParts_bounds (h : c.InRange) : ∀ n ∈ c.exactParts, 0 ≤ n ∧ n ≤ c.total := by
  unfold InRange at h
  simp only [exactParts, total, List.forall_mem_cons, List.not_mem_nil, false_implies, implies_true,
    and_true]
  omega

theorem parts_nonneg (hrange : c.InRange) (h : parts.map Int64.toInt = c.exactParts) :
    ∀ t ∈ parts, 0 ≤ t.toInt := by
  intro t ht
  have hmem : t.toInt ∈ c.exactParts := h ▸ List.mem_map_of_mem ht
  exact (exactParts_bounds hrange _ hmem).1

theorem exists_map_toInt_eq (hrange : c.InRange) (hfits : c.total ≤ Millis.greatest) :
    ∃ parts : List Millis, parts.map Int64.toInt = c.exactParts := by
  have hpart : ∀ n ∈ c.exactParts, (Int64.ofInt n).toInt = n := by
    intro n hn
    obtain ⟨hnonneg, hle⟩ := exactParts_bounds hrange n hn
    have hleast : Millis.least ≤ 0 := by decide
    exact Millis.toInt_ofInt_of_fits (Int.le_trans hleast hnonneg) (Int.le_trans hle hfits)
  refine ⟨c.exactParts.map Int64.ofInt, ?_⟩
  rw [List.map_map]
  exact (List.map_congr_left hpart).trans (List.map_id _)

/-- The whole length is the sum of the parts. -/
theorem duration_eq_ok_iff_sum? :
    c.duration = .ok length ↔ ∃ parts, c.parts = .ok parts ∧ Millis.sum? parts = some length := by
  rw [duration, bind_eq_ok]
  refine exists_congr fun parts => and_congr_right fun _ => ?_
  split <;> simp_all

/-- Components add up to a length exactly if each is in its range and the whole sum fits. -/
theorem duration_eq_ok : c.duration = .ok length ↔ c.InRange ∧ length.toInt = c.total := by
  simp only [duration_eq_ok_iff_sum?, parts_eq_ok]
  constructor
  · rintro ⟨parts, ⟨hrange, hparts⟩, hsum⟩
    exact ⟨hrange, (Millis.toInt_of_sum? hsum).trans (exactSum_parts hparts)⟩
  · rintro ⟨hrange, hlength⟩
    have hfits := Millis.toInt_le_greatest length
    obtain ⟨parts, hparts⟩ := exists_map_toInt_eq hrange (hlength ▸ hfits)
    refine ⟨parts, ⟨hrange, hparts⟩, ?_⟩
    rw [Millis.sum?_eq_some_iff (parts_nonneg hrange hparts), hlength, exactSum_parts hparts]

theorem exists_duration_iff :
    (∃ length, c.duration = .ok length) ↔ c.InRange ∧ c.total ≤ Millis.greatest := by
  simp only [duration_eq_ok, exists_and_left]
  refine and_congr_right fun hrange => Millis.exists_toInt_eq_of_nonneg ?_
  unfold InRange at hrange
  unfold total
  omega

end Components
end TemporalPattern
