import Mathlib.Algebra.Order.Field.Power
import Mathlib.Tactic.Linarith
import Mathlib.Tactic.NormNum
import Mathlib.Tactic.Positivity
import Mathlib.Tactic.Ring
import TemporalPattern.Value.Exact

/-!
# Rounding to the nearest number of a format

The numbers of a format are the points of a grid that gets wider with every power of two.  Rounding
goes to the grid point next to a quotient, so it leaves the points of the grid where they are.
-/

namespace TemporalPattern

/-! ## Integers -/

theorem roundHalfEven_bounds (num : Nat) {den : Nat} (hden : 0 < den) :
    2 * num ≤ 2 * (den * roundHalfEven num den) + den ∧
      2 * (den * roundHalfEven num den) ≤ 2 * num + den := by
  have hnum := Nat.div_add_mod num den
  have hrest := Nat.mod_lt num hden
  simp only [roundHalfEven]
  split
  case isTrue h => omega
  case isFalse h =>
    rw [Nat.mul_add, Nat.mul_one]
    omega

section

variable {num den : Nat}

theorem abs_sub_roundHalfEven_le (num : Nat) (hden : 0 < den) :
    |(num / den : ℚ) - roundHalfEven num den| ≤ 1 / 2 := by
  obtain ⟨hlow, hhigh⟩ := roundHalfEven_bounds num hden
  have hden' : (0 : ℚ) < den := by exact_mod_cast hden
  have hlow' : 2 * (num : ℚ) ≤ 2 * (den * roundHalfEven num den) + den := by exact_mod_cast hlow
  have hhigh' : 2 * (den * roundHalfEven num den : ℚ) ≤ 2 * num + den := by exact_mod_cast hhigh
  rw [abs_sub_le_iff, sub_le_iff_le_add, sub_le_comm, le_div_iff₀ hden', div_le_iff₀ hden']
  constructor <;> linarith

/-- An integer that is at most one half off is a nearest one. -/
theorem abs_sub_le_abs_sub_intCast {q : ℚ} {m : Int} (h : |q - m| ≤ 1 / 2) (n : Int) :
    |q - m| ≤ |q - n| := by
  by_cases hmn : m = n
  · rw [hmn]
  · have hstep : (1 : ℚ) ≤ |(m - n : ℚ)| := by
      exact_mod_cast Int.one_le_abs (sub_ne_zero.2 hmn)
    have htriangle : |(m - n : ℚ)| ≤ |m - q| + |q - n| := abs_sub_le _ _ _
    rw [abs_sub_comm (m : ℚ) q] at htriangle
    linarith

theorem shift_div_shift (num den : Nat) (k : Int) :
    ((num <<< (-k).toNat : Nat) : ℚ) / (den <<< k.toNat : Nat) = num / den / 2 ^ k := by
  obtain ⟨n, rfl | rfl⟩ := k.eq_nat_or_neg
  · have hneg : (-(n : Int)).toNat = 0 := by omega
    rw [hneg, Int.toNat_natCast, Nat.shiftLeft_zero, Nat.shiftLeft_eq, zpow_natCast, div_div]
    push_cast
    rfl
  · have hneg : (-(n : Int)).toNat = 0 := by omega
    rw [hneg, neg_neg, Int.toNat_natCast, Nat.shiftLeft_zero, Nat.shiftLeft_eq, zpow_neg,
      zpow_natCast, div_inv_eq_mul]
    push_cast
    ring

theorem shift_div_one_shift (num : Nat) (k : Int) :
    ((num <<< k.toNat : Nat) : ℚ) / (1 <<< (-k).toNat : Nat) = num * 2 ^ k := by
  have hshift := shift_div_shift num 1 (-k)
  rwa [neg_neg, Nat.cast_one, div_one, zpow_neg, div_inv_eq_mul] at hshift

theorem shift_le_shift_iff (num : Nat) (hden : 0 < den) (k : Int) :
    den <<< k.toNat ≤ num <<< (-k).toNat ↔ (2 : ℚ) ^ k ≤ num / den := by
  have hpow : (0 : ℚ) < 2 ^ k := by positivity
  have hshift : (0 : ℚ) < (den <<< k.toNat : Nat) := by
    rw [Nat.shiftLeft_eq]
    positivity
  rw [← one_le_div hpow, ← shift_div_shift, one_le_div hshift, Nat.cast_le]

theorem log2_sub_log2_bounds (hnum : 0 < num) (hden : 0 < den) :
    (2 : ℚ) ^ ((num.log2 : Int) - den.log2 - 1) ≤ num / den ∧
      (num / den : ℚ) < 2 ^ ((num.log2 : Int) - den.log2 + 1) := by
  have hden' : (0 : ℚ) < den := by exact_mod_cast hden
  have hnumLow : (2 : ℚ) ^ num.log2 ≤ num := by exact_mod_cast Nat.log2_self_le hnum.ne'
  have hnumHigh : (num : ℚ) < 2 ^ (num.log2 + 1) := by exact_mod_cast Nat.lt_log2_self
  have hdenLow : (2 : ℚ) ^ den.log2 ≤ den := by exact_mod_cast Nat.log2_self_le hden.ne'
  have hdenHigh : (den : ℚ) < 2 ^ (den.log2 + 1) := by exact_mod_cast Nat.lt_log2_self
  have hlow : (2 : ℚ) ^ ((num.log2 : Int) - den.log2 - 1) = 2 ^ num.log2 / 2 ^ (den.log2 + 1) := by
    rw [sub_sub, zpow_sub₀ two_ne_zero, zpow_natCast]
    norm_cast
  have hhigh : (2 : ℚ) ^ ((num.log2 : Int) - den.log2 + 1) = 2 ^ (num.log2 + 1) / 2 ^ den.log2 := by
    rw [sub_add_eq_add_sub, zpow_sub₀ two_ne_zero, zpow_natCast]
    norm_cast
  rw [hlow, hhigh, div_le_div_iff₀ (by positivity) hden', div_lt_div_iff₀ hden' (by positivity)]
  constructor
  · exact mul_le_mul hnumLow hdenHigh.le hden'.le (by positivity)
  · exact mul_lt_mul hnumHigh hdenLow (by positivity) (by positivity)

theorem floorLog2_bounds (hnum : 0 < num) (hden : 0 < den) :
    (2 : ℚ) ^ floorLog2 num den ≤ num / den ∧ (num / den : ℚ) < 2 ^ (floorLog2 num den + 1) := by
  obtain ⟨hlow, hhigh⟩ := log2_sub_log2_bounds hnum hden
  simp only [floorLog2, shift_le_shift_iff num hden]
  split
  case isTrue h => exact ⟨h, hhigh⟩
  case isFalse h =>
    rw [sub_add_cancel]
    exact ⟨hlow, not_le.1 h⟩

end

/-! ## The grid of a format -/

/-- The number with a given magnitude. -/
def signed (negative : Bool) (q : ℚ) : ℚ :=
  if negative then -q else q

namespace FloatFormat

/-- A number of the format, if there were no greatest one. -/
def OnGrid (f : FloatFormat) (q : ℚ) : Prop :=
  ∃ m e : Int, m.natAbs < 2 ^ (f.fractionBits + 1) ∧ f.minExponent ≤ e ∧ q = m * 2 ^ e

variable {f g : FloatFormat} {p q r : ℚ}

theorem OnGrid.neg (h : f.OnGrid q) : f.OnGrid (-q) := by
  obtain ⟨m, e, hm, he, rfl⟩ := h
  refine ⟨-m, e, by rwa [Int.natAbs_neg], he, ?_⟩
  push_cast
  ring

theorem OnGrid.signed (h : f.OnGrid q) (negative : Bool) : f.OnGrid (signed negative q) := by
  cases negative
  · exact h
  · exact h.neg

theorem OnGrid.mono (h : f.OnGrid q) (hbits : f.fractionBits ≤ g.fractionBits)
    (hexponent : g.minExponent ≤ f.minExponent) : g.OnGrid q := by
  obtain ⟨m, e, hm, he, hq⟩ := h
  have hpow : 2 ^ (f.fractionBits + 1) ≤ 2 ^ (g.fractionBits + 1) :=
    Nat.pow_le_pow_right Nat.two_pos (Nat.succ_le_succ hbits)
  exact ⟨m, e, Nat.lt_of_lt_of_le hm hpow, hexponent.trans he, hq⟩

/-- No number of the format is nearer. -/
def IsNearest (f : FloatFormat) (q r : ℚ) : Prop :=
  ∀ p, f.OnGrid p → |q - r| ≤ |q - p|

theorem IsNearest.neg (h : f.IsNearest q r) : f.IsNearest (-q) (-r) := by
  intro p hp
  have hleft : -q - -r = -(q - r) := by ring
  have hright : -q - p = -(q - -p) := by ring
  rw [hleft, hright, abs_neg, abs_neg]
  exact h (-p) hp.neg

theorem IsNearest.signed (h : f.IsNearest q r) (negative : Bool) :
    f.IsNearest (signed negative q) (signed negative r) := by
  cases negative
  · exact h
  · exact h.neg

theorem isNearest_self (f : FloatFormat) (q : ℚ) : f.IsNearest q q := by
  intro p _
  rw [sub_self, abs_zero]
  exact abs_nonneg _

theorem IsNearest.eq (h : f.IsNearest q r) (hq : f.OnGrid q) : r = q := by
  have hnear := h q hq
  rw [sub_self, abs_zero, abs_nonpos_iff, sub_eq_zero] at hnear
  exact hnear.symm

/-- What is nearest does not move past any number of the format. -/
theorem IsNearest.compare_eq (h : f.IsNearest q r) (hp : f.OnGrid p) (hne : r ≠ p) :
    compare r p = compare q p := by
  have hnear := h p hp
  obtain hlt | rfl | hgt := lt_trichotomy q p
  · rw [compare_lt_iff_lt.2 hlt, compare_lt_iff_lt]
    by_contra hpr
    have hpast : p < r := lt_of_le_of_ne (not_lt.1 hpr) hne.symm
    rw [abs_sub_comm q r, abs_sub_comm q p, abs_of_pos (by linarith), abs_of_pos (by linarith)]
      at hnear
    linarith
  · exact absurd (h.eq hp) hne
  · rw [compare_gt_iff_gt.2 hgt, compare_gt_iff_gt]
    by_contra hpr
    have hpast : r < p := lt_of_le_of_ne (not_lt.1 hpr) hne
    rw [abs_of_pos (by linarith), abs_of_pos (by linarith)] at hnear
    linarith

/-- What has a smaller last place is below a power of two with that leading place. -/
theorem mul_two_zpow_le {m d e : Int} (hm : m.natAbs < 2 ^ (f.fractionBits + 1)) (hd : d < e) :
    (m * 2 ^ d : ℚ) ≤ 2 ^ f.fractionBits * 2 ^ e := by
  have hm' : (m : ℚ) ≤ 2 ^ (f.fractionBits + 1) := by
    have hbound : m ≤ (2 ^ (f.fractionBits + 1) : Nat) :=
      Int.le_natAbs.trans (by exact_mod_cast hm.le)
    exact_mod_cast hbound
  calc (m * 2 ^ d : ℚ) ≤ 2 ^ (f.fractionBits + 1) * 2 ^ d :=
        mul_le_mul_of_nonneg_right hm' (by positivity)
    _ = 2 ^ f.fractionBits * 2 ^ (d + 1) := by
        rw [pow_succ, zpow_add_one₀ two_ne_zero]
        ring
    _ ≤ 2 ^ f.fractionBits * 2 ^ e :=
        mul_le_mul_of_nonneg_left (zpow_le_zpow_right₀ one_le_two hd) (by positivity)

/-! ## Rounding onto the grid -/

section

variable (f) (num den : Nat)

/-- The exponent of the last place that a rounded quotient has. -/
def roundExponent : Int :=
  max f.minExponent (floorLog2 num den - f.fractionBits)

/-- A quotient in units of that place, rounded to an integer. -/
def roundSignificand : Nat :=
  roundHalfEven (num <<< (-f.roundExponent num den).toNat) (den <<< (f.roundExponent num den).toNat)

theorem minExponent_le_roundExponent : f.minExponent ≤ f.roundExponent num den :=
  le_max_left _ _

variable {num den}

theorem lt_two_zpow (hnum : 0 < num) (hden : 0 < den) :
    (num / den : ℚ) < 2 ^ (f.fractionBits + 1) * 2 ^ f.roundExponent num den := by
  have hexponent :
      floorLog2 num den + 1 ≤ (f.fractionBits + 1 : Nat) + f.roundExponent num den := by
    unfold roundExponent
    omega
  rw [← zpow_natCast, ← zpow_add₀ two_ne_zero]
  exact (floorLog2_bounds hnum hden).2.trans_le (zpow_le_zpow_right₀ one_le_two hexponent)

/-- Above the least exponent the leading place is not empty. -/
theorem two_zpow_le (hnum : 0 < num) (hden : 0 < den)
    (hexponent : f.minExponent < f.roundExponent num den) :
    (2 ^ f.fractionBits * 2 ^ f.roundExponent num den : ℚ) ≤ num / den := by
  have hplaces : f.fractionBits + f.roundExponent num den = floorLog2 num den := by
    unfold roundExponent at *
    omega
  rw [← zpow_natCast, ← zpow_add₀ two_ne_zero, hplaces]
  exact (floorLog2_bounds hnum hden).1

variable (num)

theorem abs_sub_roundSignificand_le (hden : 0 < den) :
    |(num / den / 2 ^ f.roundExponent num den : ℚ) - f.roundSignificand num den| ≤ 1 / 2 := by
  have hshift : 0 < den <<< (f.roundExponent num den).toNat := by
    rw [Nat.shiftLeft_eq]
    positivity
  rw [← shift_div_shift]
  exact abs_sub_roundHalfEven_le _ hshift

/-- No multiple of the last place is nearer. -/
theorem abs_sub_le_of_multiple (hden : 0 < den) (n : Int) :
    |(num / den - f.roundSignificand num den * 2 ^ f.roundExponent num den : ℚ)| ≤
      |(num / den : ℚ) - n * 2 ^ f.roundExponent num den| := by
  have hpow : (0 : ℚ) < 2 ^ f.roundExponent num den := by positivity
  have hscale (m : ℚ) : |(num / den - m * 2 ^ f.roundExponent num den : ℚ)| =
      |num / den / 2 ^ f.roundExponent num den - m| * 2 ^ f.roundExponent num den := by
    rw [← abs_of_pos hpow, ← abs_mul, abs_of_pos hpow, sub_mul, div_mul_cancel₀ _ hpow.ne']
  rw [hscale, hscale]
  have hhalf := abs_sub_roundSignificand_le f num hden
  exact mul_le_mul_of_nonneg_right (abs_sub_le_abs_sub_intCast (by exact_mod_cast hhalf) n) hpow.le

variable {num}

theorem isNearest_round (hnum : 0 < num) (hden : 0 < den) :
    f.IsNearest (num / den) (f.roundSignificand num den * 2 ^ f.roundExponent num den) := by
  rintro _ ⟨m, e, hm, he, rfl⟩
  by_cases hexponent : f.roundExponent num den ≤ e
  · obtain ⟨k, hk⟩ := Int.le.dest hexponent
    have hmultiple : (m * 2 ^ e : ℚ) = (m * 2 ^ k : Int) * 2 ^ f.roundExponent num den := by
      rw [← hk, zpow_add₀ two_ne_zero, zpow_natCast]
      push_cast
      ring
    rw [hmultiple]
    exact abs_sub_le_of_multiple f num hden _
  · -- Such a grid point is below the power of two that begins the binade of the quotient.
    have hleast : f.minExponent < f.roundExponent num den := by omega
    have hbinade := two_zpow_le f hnum hden hleast
    have hbelow := mul_two_zpow_le hm (not_le.1 hexponent)
    have hnear := abs_sub_le_of_multiple f num hden (2 ^ f.fractionBits)
    push_cast at hnear
    rw [abs_of_nonneg (sub_nonneg.2 hbinade)] at hnear
    rw [abs_of_nonneg (sub_nonneg.2 (hbelow.trans hbinade))]
    linarith

theorem roundSignificand_le (hnum : 0 < num) (hden : 0 < den) :
    f.roundSignificand num den ≤ 2 ^ (f.fractionBits + 1) := by
  have hpow : (0 : ℚ) < 2 ^ f.roundExponent num den := by positivity
  have hquotient := (div_lt_iff₀ hpow).2 (lt_two_zpow f hnum hden)
  have hhalf := (abs_sub_le_iff.1 (abs_sub_roundSignificand_le f num hden)).2
  by_contra hbig
  have hbig' : (2 ^ (f.fractionBits + 1) + 1 : ℚ) ≤ f.roundSignificand num den := by
    exact_mod_cast not_le.1 hbig
  linarith

theorem le_roundSignificand (hnum : 0 < num) (hden : 0 < den)
    (hexponent : f.minExponent < f.roundExponent num den) :
    2 ^ f.fractionBits ≤ f.roundSignificand num den := by
  have hpow : (0 : ℚ) < 2 ^ f.roundExponent num den := by positivity
  have hquotient := (le_div_iff₀ hpow).2 (two_zpow_le f hnum hden hexponent)
  have hhalf := (abs_sub_le_iff.1 (abs_sub_roundSignificand_le f num hden)).1
  by_contra hsmall
  have hsmall' : (f.roundSignificand num den + 1 : ℚ) ≤ 2 ^ f.fractionBits := by
    exact_mod_cast not_le.1 hsmall
  linarith

end

end FloatFormat

/-! ## The bits of a number -/

namespace Binary

variable {f : FloatFormat} {magnitude : Nat}

theorem toNat_pack (negative : Bool) (h : magnitude < 2 ^ (f.exponentBits + f.fractionBits)) :
    (pack negative magnitude : Binary f).bits.toNat =
      negative.toNat * 2 ^ (f.exponentBits + f.fractionBits) + magnitude := by
  have hwidth : 2 ^ f.width = 2 * 2 ^ (f.exponentBits + f.fractionBits) := by
    rw [FloatFormat.width, Nat.add_assoc, Nat.pow_add, Nat.pow_one]
  have hsize :
      negative.toNat * 2 ^ (f.exponentBits + f.fractionBits) + magnitude < 2 ^ f.width := by
    rw [hwidth]
    cases negative <;> simp <;> omega
  rw [pack, BitVec.toNat_ofNat, Nat.shiftLeft_eq, Nat.mod_eq_of_lt hsize]

theorem msb_pack (negative : Bool) (h : magnitude < 2 ^ (f.exponentBits + f.fractionBits)) :
    (pack negative magnitude : Binary f).bits.msb = negative := by
  have hwidth : f.width - 1 = f.exponentBits + f.fractionBits := by
    unfold FloatFormat.width
    omega
  rw [BitVec.msb_eq_decide, hwidth, toNat_pack negative h]
  cases negative <;> simp [h]

theorem infinityBits_lt : f.infinityBits < 2 ^ (f.exponentBits + f.fractionBits) := by
  rw [FloatFormat.infinityBits, Nat.shiftLeft_eq, Nat.shiftLeft_eq, Nat.pow_add]
  have hpow := Nat.two_pow_pos f.exponentBits
  exact Nat.mul_lt_mul_of_pos_right (by omega) (Nat.two_pow_pos f.fractionBits)

theorem unpack_pack (negative : Bool) (h : magnitude < f.infinityBits) :
    (pack negative magnitude : Binary f).unpack =
      if magnitude / 2 ^ f.fractionBits = 0 then
        .finite negative (magnitude % 2 ^ f.fractionBits) f.minExponent
      else .finite negative (2 ^ f.fractionBits + magnitude % 2 ^ f.fractionBits)
        (f.minExponent + (magnitude / 2 ^ f.fractionBits - 1 : Nat)) := by
  have hsize := h.trans infinityBits_lt
  have hmagnitude : (pack negative magnitude : Binary f).bits.toNat %
      2 ^ (f.exponentBits + f.fractionBits) = magnitude := by
    rw [toNat_pack negative hsize, Nat.mul_add_mod_self_right, Nat.mod_eq_of_lt hsize]
  have hfinite : magnitude / 2 ^ f.fractionBits ≠ 2 ^ f.exponentBits - 1 := by
    rw [FloatFormat.infinityBits, Nat.shiftLeft_eq, Nat.shiftLeft_eq, Nat.one_mul] at h
    exact (Nat.div_lt_of_lt_mul (by rwa [Nat.mul_comm])).ne
  simp only [unpack, Nat.shiftLeft_eq, Nat.one_mul, Nat.shiftRight_eq_div_pow, hmagnitude,
    msb_pack negative hsize, if_neg hfinite]

/-- A significand with a carry is the first one of the next power of two. -/
theorem exists_unpack_pack (negative : Bool) {k significand : Nat}
    (hlow : k = 0 ∨ 2 ^ f.fractionBits ≤ significand)
    (hhigh : significand ≤ 2 ^ (f.fractionBits + 1))
    (hfit : k * 2 ^ f.fractionBits + significand < f.infinityBits) :
    ∃ m e, (pack negative (k * 2 ^ f.fractionBits + significand) : Binary f).unpack =
        .finite negative m e ∧ (m * 2 ^ e : ℚ) = significand * 2 ^ (f.minExponent + k) := by
  have hpow := Nat.two_pow_pos f.fractionBits
  rw [unpack_pack negative hfit]
  rw [Nat.pow_succ] at hhigh
  obtain hsmall | hlarge := Nat.lt_or_ge significand (2 ^ f.fractionBits)
  · obtain rfl : k = 0 := hlow.resolve_right hsmall.not_ge
    rw [Nat.zero_mul, Nat.zero_add, Nat.div_eq_of_lt hsmall, if_pos rfl, Nat.mod_eq_of_lt hsmall]
    exact ⟨_, _, rfl, by simp⟩
  · obtain ⟨rest, rfl⟩ := Nat.exists_eq_add_of_le hlarge
    have hsum : k * 2 ^ f.fractionBits + (2 ^ f.fractionBits + rest) =
        rest + (k + 1) * 2 ^ f.fractionBits := by ring
    rw [hsum, Nat.add_mul_div_right _ _ hpow, Nat.add_mul_mod_self_right, ← Nat.add_assoc,
      if_neg (Nat.add_one_ne_zero _), Nat.add_sub_cancel]
    obtain hrest | hcarry := Nat.lt_or_eq_of_le (by omega : rest ≤ 2 ^ f.fractionBits)
    · rw [Nat.div_eq_of_lt hrest, Nat.mod_eq_of_lt hrest, Nat.zero_add]
      exact ⟨_, _, rfl, rfl⟩
    · rw [hcarry, Nat.div_self hpow, Nat.mod_self, Nat.add_zero, Nat.add_comm 1 k]
      refine ⟨_, _, rfl, ?_⟩
      push_cast
      rw [← add_assoc, zpow_add_one₀ two_ne_zero]
      ring

theorem ofRatio_eq (negative : Bool) {num den : Nat} (hnum : 0 < num) :
    (ofRatio negative num den : Binary f) = pack negative
      (min ((f.roundExponent num den - f.minExponent).toNat <<< f.fractionBits +
        f.roundSignificand num den) f.infinityBits) :=
  if_neg hnum.ne'

/-- A quotient that is not too large becomes a number that is nearest to it. -/
theorem exists_unpack_ofRatio (negative : Bool) {num den : Nat} (hnum : 0 < num) (hden : 0 < den)
    (hfit : f.roundExponent num den - f.minExponent + 3 < (2 ^ f.exponentBits : Nat)) :
    ∃ m e, (ofRatio negative num den : Binary f).unpack = .finite negative m e ∧
      f.IsNearest (num / den) (m * 2 ^ e) := by
  obtain ⟨k, hk⟩ := Int.le.dest (f.minExponent_le_roundExponent num den)
  have hlow : k = 0 ∨ 2 ^ f.fractionBits ≤ f.roundSignificand num den := by
    rw [or_iff_not_imp_left]
    intro hne
    exact f.le_roundSignificand hnum hden (by omega)
  have hhigh := f.roundSignificand_le hnum hden
  have hplaces : k * 2 ^ f.fractionBits + f.roundSignificand num den < f.infinityBits := by
    have hpow := Nat.two_pow_pos f.fractionBits
    have hroom : (k + 2) * 2 ^ f.fractionBits < (2 ^ f.exponentBits - 1) * 2 ^ f.fractionBits :=
      Nat.mul_lt_mul_of_pos_right (by omega) hpow
    rw [FloatFormat.infinityBits, Nat.shiftLeft_eq, Nat.shiftLeft_eq, Nat.one_mul]
    rw [Nat.pow_succ] at hhigh
    linarith
  obtain ⟨m, e, hunpack, hvalue⟩ := exists_unpack_pack negative hlow hhigh hplaces
  refine ⟨m, e, ?_, ?_⟩
  · have hshift : (f.roundExponent num den - f.minExponent).toNat <<< f.fractionBits =
        k * 2 ^ f.fractionBits := by
      rw [← hk, add_sub_cancel_left, Int.toNat_natCast, Nat.shiftLeft_eq]
    rw [← hunpack, ofRatio_eq negative hnum, hshift, Nat.min_eq_left hplaces.le]
  · rw [hvalue, hk]
    exact f.isNearest_round hnum hden

end Binary
end TemporalPattern
