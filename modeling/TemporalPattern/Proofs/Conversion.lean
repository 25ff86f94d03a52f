import TemporalPattern.Proofs.Rounding

/-!
# Exact values of converted numbers

Two floating point numbers are compared by their exact values.  Conversion to 64 bits keeps the
value of every number of 32 bits, whether it is an integer or not; an integer of 64 bits goes to a
nearest number, and so past none of the others.
-/

namespace TemporalPattern

/-! ## Exact values -/

namespace ExtendedRat

theorem bot_lt_coe_lt_top (q : ℚ) : (⊥ : ExtendedRat) < q ∧ (q : ExtendedRat) < ⊤ :=
  ⟨WithBot.bot_lt_coe _, WithBot.coe_lt_coe.2 (WithTop.coe_lt_top q)⟩

theorem compare_coe (q r : ℚ) : compare (q : ExtendedRat) (r : ExtendedRat) = compare q r := by
  rw [← cmp_eq_compare, ← cmp_eq_compare]
  exact WithBotTop.coe_strictMono.cmp_map_eq q r

theorem compare_intCast (m n : Int) :
    compare ((m : ℚ) : ExtendedRat) ((n : ℚ) : ExtendedRat) = compare m n := by
  have hcast : StrictMono fun m : Int => (m : ℚ) := fun m n h => Int.cast_lt.2 h
  rw [compare_coe, ← cmp_eq_compare, ← cmp_eq_compare]
  exact hcast.cmp_map_eq m n

variable (x y : ExtendedRat)

theorem compare_swap : (compare x y).swap = compare y x := by
  rw [← cmp_eq_compare, ← cmp_eq_compare, cmp_swap]

variable {x y}

theorem compare_trans {z : ExtendedRat} {order : Ordering} (hxy : compare x y = order)
    (hyz : compare y z = order) : compare x z = order := by
  cases order with
  | lt =>
      rw [compare_lt_iff_lt] at *
      exact hxy.trans hyz
  | eq =>
      rw [compare_eq_iff_eq] at *
      exact hxy.trans hyz
  | gt =>
      rw [compare_gt_iff_gt] at *
      exact hyz.trans hxy

end ExtendedRat

namespace Unpacked

theorem number?_finite (negative : Bool) (m : Nat) (e : Int) :
    (finite negative m e).number? = some (signed negative (m * 2 ^ e) : ExtendedRat) :=
  rfl

/-- In units of a power of two that divides it. -/
theorem signed_eq_scaled (negative : Bool) (m : Nat) {unit e : Int} (h : unit ≤ e) :
    signed negative (m * 2 ^ e) = scaled unit negative m e * 2 ^ unit := by
  obtain ⟨k, rfl⟩ := Int.le.dest h
  rw [scaled, add_sub_cancel_left, Int.toNat_natCast, Nat.shiftLeft_eq, zpow_add₀ two_ne_zero]
  cases negative
  · simp [signed]
    ring
  · simp [signed]
    ring

theorem compare_mul_two_zpow (m n e : Int) :
    compare (m * 2 ^ e : ℚ) (n * 2 ^ e) = compare m n := by
  have hscale : StrictMono fun m : Int => (m * 2 ^ e : ℚ) := by
    intro m n h
    exact mul_lt_mul_of_pos_right (Int.cast_lt.2 h) (by positivity)
  rw [← cmp_eq_compare, ← cmp_eq_compare]
  exact hscale.cmp_map_eq m n

theorem compare?_finite {s t : Bool} {m n : Nat} {e k : Int} :
    (finite s m e).compare? (finite t n k) =
      some (compare (signed s (m * 2 ^ e)) (signed t (n * 2 ^ k))) := by
  rw [compare?, Option.some_inj, signed_eq_scaled s m (min_le_left e k),
    signed_eq_scaled t n (min_le_right e k), compare_mul_two_zpow]

theorem compare?_of_number? {u v : Unpacked} {x y : ExtendedRat} (hu : u.number? = some x)
    (hv : v.number? = some y) : u.compare? v = some (compare x y) := by
  cases u with
  | nan => simp [number?] at hu
  | infinite s =>
      obtain rfl := Option.some.inj hu
      cases v with
      | nan => simp [number?] at hv
      | infinite t =>
          obtain rfl := Option.some.inj hv
          revert s t
          decide
      | finite t n k =>
          obtain rfl := Option.some.inj hv
          obtain ⟨hbot, htop⟩ := ExtendedRat.bot_lt_coe_lt_top (signed t (n * 2 ^ k))
          cases s
          · exact congrArg some (compare_gt_iff_gt.2 htop).symm
          · exact congrArg some (compare_lt_iff_lt.2 hbot).symm
  | finite s m e =>
      obtain rfl := Option.some.inj hu
      cases v with
      | nan => simp [number?] at hv
      | infinite t =>
          obtain rfl := Option.some.inj hv
          obtain ⟨hbot, htop⟩ := ExtendedRat.bot_lt_coe_lt_top (signed s (m * 2 ^ e))
          cases t
          · exact congrArg some (compare_lt_iff_lt.2 htop).symm
          · exact congrArg some (compare_gt_iff_gt.2 hbot).symm
      | finite t n k =>
          obtain rfl := Option.some.inj hv
          rw [compare?_finite, ← ExtendedRat.compare_coe]
          rfl

end Unpacked

/-! ## Numbers on the grid -/

namespace Binary

variable {f : FloatFormat} {x : Binary f}

theorem unpack_finite_bounds {negative : Bool} {m : Nat} {e : Int}
    (h : x.unpack = .finite negative m e) :
    m < 2 ^ (f.fractionBits + 1) ∧ f.minExponent ≤ e ∧
      e ≤ f.minExponent + (2 ^ f.exponentBits : Nat) := by
  have hpow := Nat.two_pow_pos f.fractionBits
  have hfraction (n : Nat) : n % 2 ^ f.fractionBits < 2 ^ f.fractionBits := Nat.mod_lt n hpow
  have hmagnitude := Nat.mod_lt x.bits.toNat (Nat.two_pow_pos (f.exponentBits + f.fractionBits))
  have hexponent : x.bits.toNat % 2 ^ (f.exponentBits + f.fractionBits) / 2 ^ f.fractionBits <
      2 ^ f.exponentBits := by
    rw [Nat.pow_add, Nat.mul_comm] at hmagnitude
    rw [Nat.pow_add, Nat.mul_comm]
    exact Nat.div_lt_of_lt_mul hmagnitude
  simp only [unpack, Nat.shiftLeft_eq, Nat.one_mul, Nat.shiftRight_eq_div_pow] at h
  rw [Nat.pow_succ]
  split at h
  case isTrue => split at h <;> simp at h
  case isFalse =>
    split at h
    case isTrue =>
      obtain ⟨-, rfl, rfl⟩ := Unpacked.finite.inj h
      have hm := hfraction (x.bits.toNat % 2 ^ (f.exponentBits + f.fractionBits))
      exact ⟨by omega, le_refl _, by omega⟩
    case isFalse =>
      obtain ⟨-, rfl, rfl⟩ := Unpacked.finite.inj h
      have hm := hfraction (x.bits.toNat % 2 ^ (f.exponentBits + f.fractionBits))
      refine ⟨by omega, by omega, Int.add_le_add_left (Int.ofNat_le.2 ?_) _⟩
      exact (Nat.sub_le _ 1).trans hexponent.le

theorem onGrid_of_number? {q : ℚ} (h : x.unpack.number? = some (q : ExtendedRat)) :
    f.OnGrid q := by
  cases hx : x.unpack with
  | nan => simp [hx, Unpacked.number?] at h
  | infinite negative =>
      rw [hx] at h
      cases negative
      · exact absurd (Option.some.inj h).symm (WithBotTop.coe_ne_top q)
      · exact absurd (Option.some.inj h).symm (WithBotTop.coe_ne_bot q)
  | finite negative m e =>
      obtain ⟨hm, he, -⟩ := unpack_finite_bounds hx
      rw [hx, Unpacked.number?_finite, Option.some_inj] at h
      have hgrid : f.OnGrid (m * 2 ^ e) := ⟨m, e, hm, he, rfl⟩
      rw [← WithBotTop.coe_injective h]
      exact hgrid.signed negative

end Binary

/-! ## Conversion to 64 bits -/

namespace Binary

open FloatFormat

theorem fits_binary64 {num den : Nat} (hnum : 0 < num) (hden : 0 < den)
    (hsize : (num / den : ℚ) < 2 ^ (200 : Int)) :
    binary64.roundExponent num den - binary64.minExponent + 3 <
      (2 ^ binary64.exponentBits : Nat) := by
  have hlog : floorLog2 num den < 200 := by
    have hpow := (floorLog2_bounds hnum hden).1.trans_lt hsize
    exact (zpow_lt_zpow_iff_right₀ one_lt_two).1 hpow
  have hleast : binary64.minExponent = -1074 := rfl
  have hbits : (2 ^ binary64.exponentBits : Nat) = 2048 := rfl
  have hfraction : binary64.fractionBits = 52 := rfl
  rw [roundExponent, hleast, hbits, hfraction]
  omega

theorem exists_number?_ofRatio (negative : Bool) (num : Nat) {den : Nat} (hden : 0 < den)
    (hsize : (num / den : ℚ) < 2 ^ (200 : Int)) :
    ∃ r : ℚ, (ofRatio negative num den : Binary .binary64).unpack.number? =
        some (r : ExtendedRat) ∧
      binary64.IsNearest (signed negative (num / den)) r := by
  obtain rfl | hnum := Nat.eq_zero_or_pos num
  · have hunpack : (ofRatio negative 0 den : Binary .binary64).unpack =
        .finite negative 0 binary64.minExponent := by
      show (pack negative 0 : Binary .binary64).unpack = _
      cases negative <;> decide
    refine ⟨signed negative ((0 : Nat) * 2 ^ binary64.minExponent),
      congrArg Unpacked.number? hunpack, ?_⟩
    rw [Nat.cast_zero, zero_mul, zero_div]
    exact isNearest_self _ _
  · obtain ⟨m, e, hunpack, hnear⟩ :=
      exists_unpack_ofRatio negative hnum hden (fits_binary64 hnum hden hsize)
    exact ⟨_, congrArg Unpacked.number? hunpack, hnear.signed negative⟩

theorem exists_number?_ofInt {n : Int} (h : n.natAbs ≤ 2 ^ 63) :
    ∃ r : ℚ, (ofInt n : Binary .binary64).unpack.number? =
        some (r : ExtendedRat) ∧ binary64.IsNearest n r := by
  have hsize : (n.natAbs / (1 : Nat) : ℚ) < 2 ^ (200 : Int) := by
    have hcast : (n.natAbs : ℚ) ≤ 2 ^ 63 := by exact_mod_cast h
    rw [Nat.cast_one, div_one]
    exact hcast.trans_lt (by norm_num)
  have hsigned : signed (n < 0) (n.natAbs / (1 : Nat)) = (n : ℚ) := by
    rw [Nat.cast_natAbs, Nat.cast_one, div_one, signed]
    obtain hneg | hpos := lt_or_ge n 0
    · rw [if_pos (decide_eq_true hneg), abs_of_neg hneg, Int.cast_neg, neg_neg]
    · rw [if_neg (by simpa using hpos), abs_of_nonneg hpos]
  rw [← hsigned]
  exact exists_number?_ofRatio _ _ Nat.one_pos hsize

theorem onGrid_intCast {n : Int} (h : n.natAbs ≤ 2 ^ 53) : binary64.OnGrid n := by
  obtain hlt | heq := Nat.lt_or_eq_of_le h
  · exact ⟨n, 0, hlt, by decide, by simp⟩
  · obtain rfl | rfl := Int.natAbs_eq_iff.1 heq
    · exact ⟨1, 53, by decide, by decide, by norm_num⟩
    · exact ⟨-1, 53, by decide, by decide, by norm_num⟩

theorem number?_ofInt {n : Int} (h : n.natAbs ≤ 2 ^ 53) :
    (ofInt n : Binary .binary64).unpack.number? =
      some ((n : ℚ) : ExtendedRat) := by
  obtain ⟨r, hr, hnear⟩ := exists_number?_ofInt (h.trans (by decide))
  rw [hr, hnear.eq (onGrid_intCast h)]

theorem lt_of_unpack_binary32 {x : Binary .binary32} {negative : Bool} {m : Nat} {e : Int}
    (hx : x.unpack = .finite negative m e) : (m * 2 ^ e : ℚ) < 2 ^ (200 : Int) := by
  obtain ⟨hm, -, he⟩ := unpack_finite_bounds hx
  have hm' : (m : ℚ) < 2 ^ (24 : Int) := by exact_mod_cast hm
  have hpow : (2 : ℚ) ^ e ≤ 2 ^ (107 : Int) := zpow_le_zpow_right₀ one_le_two he
  calc (m * 2 ^ e : ℚ) ≤ 2 ^ (24 : Int) * 2 ^ (107 : Int) :=
        mul_le_mul hm'.le hpow (by positivity) (by positivity)
    _ < 2 ^ (200 : Int) := by norm_num

/-- Every number of 32 bits is one of 64 bits. -/
theorem number?_convert {x : Binary .binary32} {y : ExtendedRat} (h : x.unpack.number? = some y) :
    (x.convert : Binary .binary64).unpack.number? = some y := by
  cases hx : x.unpack with
  | nan => simp [hx, Unpacked.number?] at h
  | infinite negative =>
      rw [hx] at h
      rw [convert, hx, ← h]
      cases negative <;> decide
  | finite negative m e =>
      have hsize := lt_of_unpack_binary32 hx
      have hgrid : binary64.OnGrid (signed negative (m * 2 ^ e)) :=
        (onGrid_of_number? (congrArg Unpacked.number? hx)).mono (by decide) (by decide)
      have hden : 0 < 1 <<< (-e).toNat := by
        rw [Nat.one_shiftLeft]
        positivity
      rw [← shift_div_one_shift] at hsize hgrid
      obtain ⟨r, hr, hnear⟩ := exists_number?_ofRatio negative _ hden hsize
      rw [hx, Unpacked.number?_finite, ← shift_div_one_shift, ← hnear.eq hgrid] at h
      rw [convert, hx, ← h]
      exact hr

end Binary
end TemporalPattern
