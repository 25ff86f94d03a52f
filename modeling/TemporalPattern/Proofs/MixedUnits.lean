import TemporalPattern.Proofs.Lengths

/-!
# Lengths in mixed units

Components in range are a notation by place value: what stands in the smaller units is always less
than one of the next larger unit.  So every length that is not negative is written in exactly one
way, and a longer length comes later in the order of the amounts, taken from the largest unit down.
-/

namespace TemporalPattern

/-- A digit decides unless it is the same, since the rest is less than one of it. -/
theorem place_lt_iff {size q q' r r' : Int} (hr : 0 ≤ r ∧ r < size) (hr' : 0 ≤ r' ∧ r' < size) :
    size * q + r < size * q' + r' ↔ q < q' ∨ q = q' ∧ r < r' := by
  have hsize : 0 ≤ size := Int.le_trans hr.1 (Int.le_of_lt hr.2)
  -- one more of a digit outweighs every rest
  have hnext {a b : Int} (h : a < b) : size * a + size ≤ size * b := by
    have hle : size * (a + 1) ≤ size * b := Int.mul_le_mul_of_nonneg_left h hsize
    rwa [Int.mul_add, Int.mul_one] at hle
  rcases Int.lt_trichotomy q q' with hlt | rfl | hgt
  · have := hnext hlt
    omega
  · omega
  · have := hnext hgt
    omega

namespace Components

variable {c c' : Components} {length : Millis}

/-! ## Amounts -/

/-- The amounts that make up a length: what a unit leaves over is measured in the next one. -/
def amountsOf (n : Int) : List Int :=
  [n / 86400000, n % 86400000 / 3600000, n % 3600000 / 60000, n % 60000 / 1000, n % 1000]

theorem eq_of_amounts_eq (h : c.amounts = c'.amounts) : c = c' := by
  simp only [amounts, List.cons.injEq, Int64.toInt_inj] at h
  obtain ⟨hdays, hhours, hminutes, hseconds, hmillis, -⟩ := h
  cases c
  cases c'
  simp only at hdays hhours hminutes hseconds hmillis
  rw [hdays, hhours, hminutes, hseconds, hmillis]

/-- What stands below a unit is less than one of it. -/
theorem rests_lt (h : c.InRange) :
    (0 ≤ c.millis.toInt ∧ c.millis.toInt < 1000) ∧
    (0 ≤ 1000 * c.seconds.toInt + c.millis.toInt ∧
      1000 * c.seconds.toInt + c.millis.toInt < 60000) ∧
    (0 ≤ 60000 * c.minutes.toInt + (1000 * c.seconds.toInt + c.millis.toInt) ∧
      60000 * c.minutes.toInt + (1000 * c.seconds.toInt + c.millis.toInt) < 3600000) ∧
    0 ≤ 3600000 * c.hours.toInt +
        (60000 * c.minutes.toInt + (1000 * c.seconds.toInt + c.millis.toInt)) ∧
      3600000 * c.hours.toInt +
        (60000 * c.minutes.toInt + (1000 * c.seconds.toInt + c.millis.toInt)) < 86400000 := by
  unfold InRange at h
  omega

theorem total_lt_total_iff (hc : c.InRange) (hc' : c'.InRange) :
    c.total < c'.total ↔ List.Lex (· < ·) c.amounts c'.amounts := by
  obtain ⟨hmillis, hseconds, hminutes, hhours⟩ := rests_lt hc
  obtain ⟨hmillis', hseconds', hminutes', hhours'⟩ := rests_lt hc'
  -- the total with each unit before all that stands below it
  simp only [total, Int.add_assoc, amounts, List.cons_lex_cons_iff, List.not_lex_nil, and_false,
    or_false]
  rw [place_lt_iff hhours hhours', place_lt_iff hminutes hminutes',
    place_lt_iff hseconds hseconds', place_lt_iff hmillis hmillis']

theorem amounts_eq_amountsOf (h : c.InRange) : c.amounts = amountsOf c.total := by
  unfold InRange at h
  simp only [amounts, amountsOf, total, List.cons.injEq, and_true]
  omega

theorem exists_total_eq {n : Int} (hn : 0 ≤ n) (hfits : n ≤ Millis.greatest) :
    ∃ c : Components, c.InRange ∧ c.total = n := by
  have hword {m : Int} (hm : 0 ≤ m) (hle : m ≤ n) : ∃ t : Int64, t.toInt = m :=
    (Millis.exists_toInt_eq_of_nonneg hm).2 (Int.le_trans hle hfits)
  obtain ⟨d, hd⟩ := hword (m := n / 86400000) (by omega) (by omega)
  obtain ⟨h, hh⟩ := hword (m := n % 86400000 / 3600000) (by omega) (by omega)
  obtain ⟨m, hm⟩ := hword (m := n % 3600000 / 60000) (by omega) (by omega)
  obtain ⟨s, hs⟩ := hword (m := n % 60000 / 1000) (by omega) (by omega)
  obtain ⟨ms, hms⟩ := hword (m := n % 1000) (by omega) (by omega)
  refine ⟨⟨d, h, m, s, ms⟩, ?_, ?_⟩
  · simp only [InRange, hd, hh, hm, hs, hms]
    omega
  · simp only [total, hd, hh, hm, hs, hms]
    omega

/-! ## Lengths -/

theorem existsUnique_duration_eq_ok (h : 0 ≤ length.toInt) :
    ∃! c : Components, c.duration = .ok length := by
  obtain ⟨c, hrange, htotal⟩ := exists_total_eq h (Millis.toInt_le_greatest length)
  refine ⟨c, duration_eq_ok.2 ⟨hrange, htotal.symm⟩, fun c' hc' => eq_of_amounts_eq ?_⟩
  obtain ⟨hrange', htotal'⟩ := duration_eq_ok.1 hc'
  rw [amounts_eq_amountsOf hrange', amounts_eq_amountsOf hrange, htotal, htotal']

theorem addsExactly_of_duration (h : c.duration = .ok length) : c.AddsExactly := by
  obtain ⟨parts, hparts, hsum⟩ := duration_eq_ok_iff_sum?.1 h
  refine ⟨parts, hparts, (parts_eq_ok.1 hparts).2, fun count => ?_⟩
  obtain ⟨first, hfirst⟩ := Millis.exists_sum?_take hsum count
  exact ⟨first, hfirst, Millis.toInt_of_sum? hfirst⟩

/-- Components have a length exactly if each is in its range and the sum of all of them fits, and
then the length is that sum.  No product and no sum that is computed on the way, for these or any
other components, differs from the exact one.  Every length that is not negative is that of one
choice of components only, and lengths are ordered as their amounts are from the largest unit
down. -/
theorem mixed_units_write_each_length_once :
    (∀ c : Components,
      (∃ length, c.duration = .ok length) ↔ c.InRange ∧ c.total ≤ Millis.greatest) ∧
    (∀ (c : Components) (length : Millis), c.duration = .ok length →
      length.toInt = c.total ∧ c.AddsExactly) ∧
    (∀ (unit : TimeUnit) (amount : Int64) (length : Millis), unit.duration amount = .ok length →
      length.toInt = amount.toInt * unit.size.toInt) ∧
    (∀ (terms : List Millis) (sum : Millis), Millis.sum? terms = some sum →
      sum.toInt = Millis.exactSum terms) ∧
    (∀ length : Millis, 0 ≤ length.toInt → ∃! c : Components, c.duration = .ok length) ∧
    ∀ (c c' : Components) (length length' : Millis), c.duration = .ok length →
      c'.duration = .ok length' →
      (length.toInt < length'.toInt ↔ List.Lex (· < ·) c.amounts c'.amounts) := by
  refine ⟨fun c => exists_duration_iff, fun c length h => ?_, fun unit amount length h => ?_,
    fun terms sum h => Millis.toInt_of_sum? h, fun length h => existsUnique_duration_eq_ok h,
    fun c c' length length' h h' => ?_⟩
  · exact ⟨(duration_eq_ok.1 h).2, addsExactly_of_duration h⟩
  · exact (TimeUnit.duration_eq_ok.1 h).2
  · obtain ⟨hrange, hlength⟩ := duration_eq_ok.1 h
    obtain ⟨hrange', hlength'⟩ := duration_eq_ok.1 h'
    rw [hlength, hlength', total_lt_total_iff hrange hrange']

/-- The greatest length, the one a millisecond shorter, and components that would be a millisecond
longer. -/
theorem mixed_units_write_each_length_once_at_greatest :
    let c : Components := ⟨106751991167, 7, 12, 55, 806⟩
    let last : Components := ⟨106751991167, 7, 12, 55, 807⟩
    let beyond : Components := ⟨106751991167, 7, 12, 55, 808⟩
    (∃ length, last.duration = .ok length) ∧ (¬ ∃ length, beyond.duration = .ok length) ∧
      last.AddsExactly ∧ (∃! c : Components, c.duration = .ok 9223372036854775807) ∧
      List.Lex (· < ·) c.amounts last.amounts := by
  intro c last beyond
  obtain ⟨haccepted, hexact, -, -, honce, horder⟩ := mixed_units_write_each_length_once
  have hc : c.duration = .ok 9223372036854775806 := by decide +kernel
  have hlast : last.duration = .ok 9223372036854775807 := by decide +kernel
  have hbeyond : ¬ beyond.total ≤ Millis.greatest := by decide +kernel
  exact ⟨⟨_, hlast⟩, fun h => hbeyond ((haccepted beyond).1 h).2, (hexact last _ hlast).2,
    honce _ (by decide), (horder c last _ _ hc hlast).1 (by decide)⟩

end Components
end TemporalPattern
