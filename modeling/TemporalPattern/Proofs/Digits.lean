import Mathlib.Algebra.Group.Nat.Defs
import Mathlib.Data.List.Basic
import TemporalPattern.Time.Pattern

/-!
# Digits

The decimal digits of a number, with or without zeros in front of them.  Texts of numerals and of
instants are put together from such runs of digits.
-/

namespace TemporalPattern

structure IsDigits (ds : List Char) : Prop where
  ne_nil : ds ≠ []
  digits : ∀ c ∈ ds, c.isDigit

/-- What holds of the ten digits holds of every digit. -/
theorem of_isDigit {P : Char → Prop} (h : ∀ n < 58, 48 ≤ n → P (Char.ofNat n)) {c : Char}
    (hc : c.isDigit) : P c := by
  obtain ⟨hzero, hnine⟩ := Char.isDigit_iff_toNat.1 hc
  have hdigit := h c.toNat (Nat.lt_succ_of_le hnine) hzero
  rwa [Char.ofNat_toNat] at hdigit

theorem isBlank_of_isDigit {c : Char} (h : c.isDigit) : Text.isBlank c = false := by
  apply of_isDigit _ h
  decide

/-- The text does not go on with a digit. -/
def EndsDigits (cs : List Char) : Prop :=
  ∀ c ∈ cs.head?, c.isDigit = false

theorem endsDigits_nil : EndsDigits [] := by
  simp [EndsDigits]

theorem endsDigits_cons {c : Char} (h : c.isDigit = false) (cs : List Char) :
    EndsDigits (c :: cs) := by
  rintro _ ⟨⟩
  exact h

theorem EndsDigits.takeWhile {cs : List Char} (h : EndsDigits cs) :
    cs.takeWhile Char.isDigit = [] := by
  cases cs with
  | nil => rfl
  | cons c cs => simp [h c rfl]

theorem EndsDigits.dropWhile {cs : List Char} (h : EndsDigits cs) :
    cs.dropWhile Char.isDigit = cs := by
  cases cs with
  | nil => rfl
  | cons c cs => simp [h c rfl]

theorem isDigits_toDigits (n : Nat) : IsDigits (Nat.toDigits 10 n) where
  ne_nil := by
    rw [Nat.toDigits_eq_if (by decide)]
    split <;> simp
  digits _ hc := Nat.isDigit_of_mem_toDigits (by decide) (by decide) hc

namespace IsDigits

variable {ds es : List Char}

theorem append (hds : IsDigits ds) (hes : ∀ c ∈ es, c.isDigit) : IsDigits (ds ++ es) where
  ne_nil := List.append_ne_nil_of_left_ne_nil hds.ne_nil es
  digits := List.forall_mem_append.2 ⟨hds.digits, hes⟩

theorem prepend (hes : ∀ c ∈ es, c.isDigit) (hds : IsDigits ds) : IsDigits (es ++ ds) where
  ne_nil := List.append_ne_nil_of_right_ne_nil es hds.ne_nil
  digits := List.forall_mem_append.2 ⟨hes, hds.digits⟩

theorem of_subset (hds : IsDigits ds) (hne : es ≠ []) (hsub : es ⊆ ds) : IsDigits es where
  ne_nil := hne
  digits c hc := hds.digits c (hsub hc)

theorem take (hds : IsDigits ds) {k : Nat} (hk : 0 < k) : IsDigits (ds.take k) := by
  apply hds.of_subset _ (List.take_subset k ds)
  rw [ne_eq, List.take_eq_nil_iff]
  exact not_or.2 ⟨Nat.ne_of_gt hk, hds.ne_nil⟩

theorem drop (hds : IsDigits ds) {k : Nat} (hk : k < ds.length) : IsDigits (ds.drop k) := by
  apply hds.of_subset _ (List.drop_subset k ds)
  rw [ne_eq, List.drop_eq_nil_iff]
  exact Nat.not_le.2 hk

end IsDigits

theorem isDigit_of_mem_zeros {k : Nat} : ∀ c ∈ List.replicate k '0', c.isDigit := by
  intro c hc
  obtain rfl := List.eq_of_mem_replicate hc
  decide

theorem eq_zero_of_head?_toDigits {n : Nat} (h : (Nat.toDigits 10 n).head? = some '0') :
    n = 0 := by
  induction n using Nat.strongRecOn with
  | ind n ih =>
      rw [Nat.toDigits_eq_if (by decide)] at h
      split at h
      case isTrue hn =>
        have hdigits : ∀ m < 10, m.digitChar = '0' → m = 0 := by decide
        exact hdigits n hn (Option.some.inj h)
      case isFalse hn =>
        rw [List.head?_append_of_ne_nil _ (isDigits_toDigits _).ne_nil] at h
        have hzero := ih (n / 10) (by omega) h
        omega

/-! ## Integers -/

theorem toList_toString (k : Int) :
    (toString k).toList = (if k < 0 then ['-'] else []) ++ Nat.toDigits 10 k.natAbs := by
  cases k with
  | ofNat m => simp [Int.toString_eq_repr, Int.repr]
  | negSucc m => simp [Int.toString_eq_repr, Int.repr, Int.natAbs]

theorem toString_injective : Function.Injective (toString : Int → String) := by
  intro j k h
  have htext : (toString j).toList = (toString k).toList := by rw [h]
  rw [toList_toString, toList_toString] at htext
  have hdash (n : Nat) : '-' ∉ Nat.toDigits 10 n := fun hmem =>
    absurd ((isDigits_toDigits n).digits '-' hmem) (by decide)
  have habs (h : Nat.toDigits 10 j.natAbs = Nat.toDigits 10 k.natAbs) : j.natAbs = k.natAbs := by
    rw [← Nat.ofDigitChars_ten_toDigits (n := j.natAbs), h, Nat.ofDigitChars_ten_toDigits]
  -- a text with a sign is not one without
  by_cases hj : j < 0
  · by_cases hk : k < 0
    · rw [if_pos hj, if_pos hk, List.append_cancel_left_eq] at htext
      have := habs htext
      omega
    · rw [if_pos hj, if_neg hk, List.singleton_append, List.nil_append] at htext
      exact absurd (htext ▸ List.mem_cons_self) (hdash k.natAbs)
  · by_cases hk : k < 0
    · rw [if_neg hj, if_pos hk, List.singleton_append, List.nil_append] at htext
      exact absurd (htext ▸ List.mem_cons_self) (hdash j.natAbs)
    · rw [if_neg hj, if_neg hk, List.nil_append, List.nil_append] at htext
      have := habs htext
      omega

/-! ## Numbers of fixed width -/

namespace Pattern

variable {width n : Nat}

theorem isDigits_padded (width n : Nat) : IsDigits (padded width n) :=
  .prepend isDigit_of_mem_zeros (isDigits_toDigits n)

@[simp] theorem ofDigitChars_padded : Nat.ofDigitChars 10 (padded width n) 0 = n := by
  rw [padded, Nat.ofDigitChars_append, Nat.ofDigitChars_replicate_zero, Nat.mul_zero,
    Nat.ofDigitChars_ten_toDigits]

theorem le_length_padded (width n : Nat) : width ≤ (padded width n).length := by
  simp only [padded, List.length_append, List.length_replicate]
  omega

theorem length_padded (hwidth : 0 < width) (h : n < 10 ^ width) :
    (padded width n).length = width := by
  have hlength : (Nat.toDigits 10 n).length ≤ width :=
    (Nat.length_toDigits_le_iff (by decide) hwidth).2 h
  rw [padded, List.length_append, List.length_replicate]
  omega

end Pattern
end TemporalPattern
