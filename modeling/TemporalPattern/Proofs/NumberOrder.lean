import TemporalPattern.Comparison.Verdict
import TemporalPattern.Proofs.Conversion
import TemporalPattern.Proofs.Switching
import TemporalPattern.Proofs.Verdicts

/-!
# Numbers are ordered by their values

Two integers, and two numbers of one floating point type, are compared exactly; all others are
first converted to 64-bit floating point numbers.  So the order is that of the exact values, unless
an integer of 64 bits is rounded to the very number it is compared with.
-/

namespace TemporalPattern

namespace Value

variable {v w : Value} {x y : ExtendedRat}

/-- An integer that is not rounded to a floating point number stays on the same side of it. -/
theorem compare?_ofInt {n : Int} (hn : n.natAbs ≤ 2 ^ 63) {z : Binary .binary64}
    (hz : z.unpack.number? = some y)
    (h : (Binary.ofInt n : Binary .binary64).unpack.number? = some y →
      ((n : ℚ) : ExtendedRat) = y) :
    (Binary.ofInt n).compare? z = some (compare ((n : ℚ) : ExtendedRat) y) := by
  obtain ⟨r, hr, hnear⟩ := Binary.exists_number?_ofInt hn
  rw [Binary.compare?, Unpacked.compare?_of_number? hr hz]
  by_cases heq : (r : ExtendedRat) = y
  · rw [heq, h (hr.trans (congrArg some heq))]
  · congr 1
    induction y using WithBotTop.rec with
    | bot =>
        have hbot (q : ℚ) := compare_gt_iff_gt.2 (ExtendedRat.bot_lt_coe_lt_top q).1
        rw [hbot, hbot]
    | top =>
        have htop (q : ℚ) := compare_lt_iff_lt.2 (ExtendedRat.bot_lt_coe_lt_top q).2
        rw [htop, htop]
    | coe p =>
        rw [ExtendedRat.compare_coe, ExtendedRat.compare_coe]
        apply hnear.compare_eq (Binary.onGrid_of_number? hz)
        rintro rfl
        exact heq rfl

theorem natAbs_int32_le (n : Int32) : n.toInt.natAbs ≤ 2 ^ 53 := by
  have hlow := n.le_toInt
  have hhigh := n.toInt_lt
  omega

theorem natAbs_int64_le (n : Int64) : n.toInt.natAbs ≤ 2 ^ 63 := by
  have hlow := n.le_toInt
  have hhigh := n.toInt_lt
  omega

theorem exists_toFloat64? (hv : v.number? = some x) (htype : v.type ≠ .int64) :
    ∃ z, v.toFloat64? = some z ∧ z.unpack.number? = some x := by
  cases v with
  | text s => simp [number?] at hv
  | bool b => simp [number?] at hv
  | int32 n => exact ⟨_, rfl, (Binary.number?_ofInt (natAbs_int32_le n)).trans hv⟩
  | int64 n => exact absurd rfl htype
  | float32 z => exact ⟨_, rfl, Binary.number?_convert hv⟩
  | float64 z => exact ⟨_, rfl, hv⟩

theorem compare?_of_type_ne (hv : v.type ∈ [.float32, .float64] ∨ w.type ∈ [.float32, .float64])
    (htype : v.type ≠ w.type) :
    v.compare? w = (do (← v.toFloat64?).compare? (← w.toFloat64?)) := by
  have hrest : (if v.type = w.type then v.order? w
      else do (← v.toFloat64?).compare? (← w.toFloat64?)) =
        (do (← v.toFloat64?).compare? (← w.toFloat64?)) := if_neg htype
  cases v with
  | int32 m =>
      cases w with
      | int64 n => simp [type] at hv
      | _ => exact hrest
  | int64 m =>
      cases w with
      | int32 n => simp [type] at hv
      | _ => exact hrest
  | _ => cases w <;> exact hrest

theorem compare_toInt_int32 (m n : Int32) : compare m.toInt n.toInt = compare m n :=
  compareOfLessAndEq_toInt (fun _ _ => Int32.lt_iff_toInt_lt) (fun _ _ => Int32.toInt_inj) m n

theorem compare?_of_integers (hv : v.number? = some x) (hw : w.number? = some y)
    (hvtype : v.type ∉ [.float32, .float64]) (hwtype : w.type ∉ [.float32, .float64]) :
    v.compare? w = some (compare x y) := by
  cases v with
  | int32 m =>
      obtain rfl := Option.some.inj hv
      cases w with
      | int32 n =>
          obtain rfl := Option.some.inj hw
          rw [ExtendedRat.compare_intCast, compare_toInt_int32]
          rfl
      | int64 n =>
          obtain rfl := Option.some.inj hw
          rw [ExtendedRat.compare_intCast]
          rfl
      | text _ | bool _ => simp [number?] at hw
      | float32 _ | float64 _ => simp [type] at hwtype
  | int64 m =>
      obtain rfl := Option.some.inj hv
      cases w with
      | int32 n =>
          obtain rfl := Option.some.inj hw
          rw [ExtendedRat.compare_intCast]
          rfl
      | int64 n =>
          obtain rfl := Option.some.inj hw
          rw [ExtendedRat.compare_intCast, Millis.compare_toInt]
          rfl
      | text _ | bool _ => simp [number?] at hw
      | float32 _ | float64 _ => simp [type] at hwtype
  | text _ | bool _ => simp [number?] at hv
  | float32 _ | float64 _ => simp [type] at hvtype

theorem compare?_of_float_type_eq (hv : v.number? = some x) (hw : w.number? = some y)
    (hfloat : v.type ∈ [.float32, .float64]) (htype : v.type = w.type) :
    v.compare? w = some (compare x y) := by
  cases v with
  | float32 z =>
      cases w with
      | float32 z' => exact Unpacked.compare?_of_number? hv hw
      | _ => simp [type] at htype
  | float64 z =>
      cases w with
      | float64 z' => exact Unpacked.compare?_of_number? hv hw
      | _ => simp [type] at htype
  | _ => simp [type] at hfloat

/-- An integer of 64 bits on the left, a floating point number on the right. -/
theorem compare?_int64 {n : Int64} (hw : w.number? = some y)
    (hfloat : w.type ∈ [.float32, .float64]) : (int64 n).compare? w =
      some (if (int64 n).RoundsTo w then .eq
        else compare ((n.toInt : ℚ) : ExtendedRat) y) := by
  have hne : (int64 n).type ≠ w.type := by
    intro heq
    rw [← heq] at hfloat
    simp [type] at hfloat
  obtain ⟨z, hz, hzy⟩ := exists_toFloat64? hw hne.symm
  rw [compare?_of_type_ne (.inr hfloat) hne, hz]
  show (Binary.ofInt n.toInt).compare? z = _
  split
  case isTrue h =>
    have hconverted : (Binary.ofInt n.toInt : Binary .binary64).unpack.number? = some y :=
      h.2.2.2.trans hw
    rw [Binary.compare?, Unpacked.compare?_of_number? hconverted hzy, compare_eq_iff_eq.2 rfl]
  case isFalse h =>
    apply compare?_ofInt (natAbs_int64_le n) hzy
    intro hconverted
    by_contra hexact
    refine h ⟨rfl, hfloat, ?_, hconverted.trans hw.symm⟩
    rw [hw]
    exact fun heq => hexact (Option.some.inj heq)

/-- Floating point numbers of different types, and one of them with an integer of 32 bits. -/
theorem compare?_of_type_ne_int64 (hv : v.number? = some x) (hw : w.number? = some y)
    (hfloat : v.type ∈ [.float32, .float64] ∨ w.type ∈ [.float32, .float64])
    (hvtype : v.type ≠ .int64) (hwtype : w.type ≠ .int64) :
    v.compare? w = some (compare x y) := by
  by_cases htype : v.type = w.type
  · rw [← htype, or_self] at hfloat
    exact compare?_of_float_type_eq hv hw hfloat htype
  · obtain ⟨z, hz, hzx⟩ := exists_toFloat64? hv hvtype
    obtain ⟨z', hz', hzy⟩ := exists_toFloat64? hw hwtype
    rw [compare?_of_type_ne hfloat htype, hz, hz']
    exact Unpacked.compare?_of_number? hzx hzy

theorem exists_int64 (h : v.type = .int64) : ∃ n, v = int64 n := by
  cases v with
  | int64 n => exact ⟨n, rfl⟩
  | _ => simp [type] at h

theorem not_float_of_int64 (h : v.type = .int64) : v.type ∉ [.float32, .float64] := by
  rw [h]
  decide

theorem compare?_of_number? (hv : v.number? = some x) (hw : w.number? = some y) : v.compare? w =
    some (if v.RoundsTo w ∨ w.RoundsTo v then .eq else compare x y) := by
  by_cases hleft : v.type = .int64 ∧ w.type ∈ [.float32, .float64]
  · obtain ⟨n, rfl⟩ := exists_int64 hleft.1
    obtain rfl := Option.some.inj hv
    have hright : ¬ w.RoundsTo (int64 n) := fun h => not_float_of_int64 rfl h.2.1
    rw [compare?_int64 hw hleft.2]
    simp only [hright, or_false]
  · by_cases hright : w.type = .int64 ∧ v.type ∈ [.float32, .float64]
    · obtain ⟨n, rfl⟩ := exists_int64 hright.1
      obtain rfl := Option.some.inj hw
      have hleft : ¬ v.RoundsTo (int64 n) := fun h => not_float_of_int64 rfl h.2.1
      rw [compare?_swap, compare?_int64 hv hright.2, Option.map_some, apply_ite Ordering.swap,
        ExtendedRat.compare_swap]
      simp only [hleft, false_or]
      rfl
    · have hnone : ¬ (v.RoundsTo w ∨ w.RoundsTo v) := by
        rintro (h | h)
        · exact hleft ⟨h.1, h.2.1⟩
        · exact hright ⟨h.1, h.2.1⟩
      rw [if_neg hnone]
      by_cases hfloat : v.type ∈ [.float32, .float64] ∨ w.type ∈ [.float32, .float64]
      · refine compare?_of_type_ne_int64 hv hw hfloat (fun h => ?_) (fun h => ?_)
        · exact hleft ⟨h, hfloat.resolve_left (not_float_of_int64 h)⟩
        · exact hright ⟨h, hfloat.resolve_right (not_float_of_int64 h)⟩
      · rw [not_or] at hfloat
        exact compare?_of_integers hv hw hfloat.1 hfloat.2

/-- Rounding takes integers to nearest numbers only, and leaves those of 53 bits alone. -/
theorem RoundsTo.isNearest {n : Int64} (h : (int64 n).RoundsTo w) :
    2 ^ 53 < n.toInt.natAbs ∧
      ∃ r : ℚ, w.number? = some (r : ExtendedRat) ∧
        FloatFormat.binary64.IsNearest n.toInt r := by
  obtain ⟨-, -, hne, hconverted⟩ := h
  obtain ⟨r, hr, hnear⟩ := Binary.exists_number?_ofInt (natAbs_int64_le n)
  have hw : w.number? = some (r : ExtendedRat) := hconverted.symm.trans hr
  refine ⟨?_, r, hw, hnear⟩
  by_contra hsmall
  rw [hw, hnear.eq (Binary.onGrid_intCast (not_lt.1 hsmall))] at hne
  exact hne rfl

theorem isNumeric_of_number? (h : v.number? = some x) : v.type.isNumeric := by
  cases v with
  | text _ | bool _ => simp [number?] at h
  | int32 _ | int64 _ | float32 _ | float64 _ => rfl

theorem isOrdered_of_compare? {order : Ordering} (hv : v.number? = some x) (hw : w.number? = some y)
    (h : v.compare? w = some order) : v.IsOrdered w order where
  compare := h
  evaluate op := by
    have hcomparable : v.type.isComparableWith w.type := by
      simp [ValueType.isComparableWith, isNumeric_of_number? hv, isNumeric_of_number? hw]
    show op.verdictOnValues v w = _
    rw [Comparator.verdictOnValues, if_pos hcomparable, h, Option.map_some]

/-- Among numbers none of which is rounded to another, the order is that of the exact values. -/
theorem exists_compare? {s : Set Value} (hnumbers : ∀ v ∈ s, v.number? ≠ none)
    (hrounds : ∀ v ∈ s, ∀ w ∈ s, ¬ v.RoundsTo w) :
    ∃ value : Value → ExtendedRat, ∀ v ∈ s, ∀ w ∈ s,
      v.compare? w = some (compare (value v) (value w)) := by
  refine ⟨fun v => v.number?.getD ⊥, fun v hv w hw => ?_⟩
  obtain ⟨x, hx⟩ := Option.ne_none_iff_exists'.1 (hnumbers v hv)
  obtain ⟨y, hy⟩ := Option.ne_none_iff_exists'.1 (hnumbers w hw)
  simp only [compare?_of_number? hx hy, hrounds v hv w hw, hrounds w hw v hv, hx, hy, or_self,
    if_false, Option.getD_some]

/-- Numbers are ordered by their exact values, and all operators on literals are decided by that
order, except that a 64-bit integer equals the floating point number it is rounded to.  Then it is
beyond 53 bits, and no 64-bit floating point number is nearer to it.  The order is transitive on
numbers none of which is rounded to another. -/
theorem numbers_are_ordered_unless_rounded :
    (∀ (v w : Value) (x y : ExtendedRat), v.number? = some x → w.number? = some y →
      v.IsOrdered w (if v.RoundsTo w ∨ w.RoundsTo v then .eq else compare x y)) ∧
    (∀ (n : Int64) (w : Value), (int64 n).RoundsTo w → 2 ^ 53 < n.toInt.natAbs ∧
      ∃ r : ℚ, w.number? = some (r : ExtendedRat) ∧
        ∀ (z : Binary .binary64) (q : ℚ), z.unpack.number? = some (q : ExtendedRat) →
          |(n.toInt - r : ℚ)| ≤ |n.toInt - q|) ∧
    ∀ s : Set Value, (∀ v ∈ s, v.number? ≠ none) → (∀ v ∈ s, ∀ w ∈ s, ¬ v.RoundsTo w) →
      ∀ u ∈ s, ∀ v ∈ s, ∀ w ∈ s,
        (∀ order, u.compare? v = some order → v.compare? w = some order →
          u.compare? w = some order) ∧
        (u.compare? v = some .eq → u.compare? w = v.compare? w) := by
  refine ⟨fun v w x y hv hw => ?_, fun n w h => ?_, fun s hnumbers hrounds u hu v hv w hw => ?_⟩
  · exact isOrdered_of_compare? hv hw (compare?_of_number? hv hw)
  · obtain ⟨hlarge, r, hr, hnear⟩ := h.isNearest
    exact ⟨hlarge, r, hr, fun z q hz => hnear q (Binary.onGrid_of_number? hz)⟩
  · obtain ⟨value, hvalue⟩ := exists_compare? hnumbers hrounds
    rw [hvalue u hu v hv, hvalue v hv w hw, hvalue u hu w hw]
    refine ⟨fun order huv hvw => ?_, fun huv => ?_⟩
    · rw [ExtendedRat.compare_trans (Option.some.inj huv) (Option.some.inj hvw)]
    · rw [compare_eq_iff_eq.1 (Option.some.inj huv)]

theorem numbers_are_ordered_unless_rounded_near_two_pow_53 :
    let n : Int64 := 9007199254740993
    let above : Value := .float64 ⟨0x4340000000000001⟩
    let below : Value := .float32 ⟨0x5a000000⟩
    let s : Set Value := {.int32 1, .float32 ⟨0x3fc00000⟩, .float64 ⟨0x7ff0000000000000⟩}
    (int64 n).IsOrdered above .lt ∧ (int64 n).RoundsTo below ∧ (int64 n).IsOrdered below .eq ∧
      2 ^ 53 < n.toInt.natAbs ∧ (∀ v ∈ s, v.number? ≠ none) ∧
      (∀ v ∈ s, ∀ w ∈ s, ¬ v.RoundsTo w) ∧
      (int32 1).compare? (.float64 ⟨0x7ff0000000000000⟩) = some .lt := by
  intro n above below s
  obtain ⟨hordered, hrounded, htransitive⟩ := numbers_are_ordered_unless_rounded
  have hn : (int64 n).number? = some ((9007199254740993 : ℚ) : ExtendedRat) := by
    decide +kernel
  have habove : above.number? = some ((9007199254740994 : ℚ) : ExtendedRat) := by
    decide +kernel
  have hbelow : below.number? = some ((9007199254740992 : ℚ) : ExtendedRat) := by
    decide +kernel
  have hbeside : ¬ ((int64 n).RoundsTo above ∨ above.RoundsTo (int64 n)) := by decide +kernel
  have hrounds : (int64 n).RoundsTo below := by decide +kernel
  have hless := hordered _ _ _ _ hn habove
  have hequal := hordered _ _ _ _ hn hbelow
  have hbefore : compare ((9007199254740993 : ℚ) : ExtendedRat)
      ((9007199254740994 : ℚ) : ExtendedRat) = .lt := by decide +kernel
  rw [if_neg hbeside, hbefore] at hless
  rw [if_pos (.inl hrounds)] at hequal
  have hnumbers : ∀ v ∈ s, v.number? ≠ none := by
    simp only [s, Set.mem_insert_iff, Set.mem_singleton_iff]
    rintro v (rfl | rfl | rfl) <;> decide
  have hsmall : ∀ v ∈ s, ∀ w ∈ s, ¬ v.RoundsTo w := by
    simp only [s, Set.mem_insert_iff, Set.mem_singleton_iff]
    rintro v (rfl | rfl | rfl) w - h <;> exact absurd h.1 (by decide)
  have hsteps := (htransitive s hnumbers hsmall (.int32 1) (by simp [s]) (.float32 ⟨0x3fc00000⟩)
    (by simp [s]) (.float64 ⟨0x7ff0000000000000⟩) (by simp [s])).1 .lt
  exact ⟨hless, hrounds, hequal, (hrounded n below hrounds).1, hnumbers, hsmall,
    hsteps (by decide +kernel) (by decide +kernel)⟩

/-- An integer equals a smaller number, which equals an integer that is smaller too. -/
theorem rounded_integer_equals_smaller_number :
    let n : Value := .int64 9007199254740993
    let x : Value := .float64 ⟨0x4340000000000000⟩
    let m : Value := .int64 9007199254740992
    (∃ a b, n.number? = some a ∧ x.number? = some b ∧ compare a b = .gt ∧
      n.compare? x = some .eq) ∧
      x.compare? m = some .eq ∧ n.compare? m = some .gt := by
  intro n x m
  refine ⟨⟨((9007199254740993 : ℚ) : ExtendedRat),
    ((9007199254740992 : ℚ) : ExtendedRat), ?_⟩, ?_⟩ <;> decide +kernel

end Value
end TemporalPattern
