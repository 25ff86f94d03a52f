import TemporalPattern.Proofs.Calendar
import TemporalPattern.Proofs.Digits

/-!
# Texts in a pattern

The text of a stamp has the form of its pattern.  Numbers contain neither colons nor points, so a
text of the form of a pattern has just as many of them as the pattern, and patterns with different
numbers of colons have no text in common.
-/

namespace TemporalPattern

theorem Stamp.Valid.part_bounds {s : Stamp} (h : s.Valid) {p : Stamp.Part} (hp : p ≠ .year) :
    0 ≤ s.part p ∧ s.part p < 100 := by
  obtain ⟨-, ⟨-, hmonth, -, hday⟩, hhour, hminute, hsecond, hnano⟩ := h
  have hlength : Date.monthLength (Date.isLeap s.date.year) s.date.month ≤ 31 :=
    Date.monthLength_le hmonth
  cases p with
  | year => contradiction
  | _ =>
      simp only [part]
      omega

namespace Pattern

variable {value : Stamp.Part → Int} {p q : Pattern} {cs : List Char}

/-! ## Numbers -/

section

variable {least most width n : Nat} {ds : List Char}

theorem IsNumber.isDigits (h : IsNumber least most ds n) (hleast : 0 < least) : IsDigits ds where
  ne_nil := by
    rw [← List.length_pos_iff]
    exact Nat.lt_of_lt_of_le hleast h.least
  digits := h.digits

theorem IsNumber.of_length (h : IsNumber least most ds n) : IsNumber least ds.length ds n :=
  { h with most := Nat.le_refl _ }

theorem IsNumber.mono {least' : Nat} (h : IsNumber least most ds n) (hleast : least' ≤ least) :
    IsNumber least' most ds n :=
  { h with least := Nat.le_trans hleast h.least }

theorem isNumber_padded_of_length (hwidth : 0 < width) :
    IsNumber 1 (padded width n).length (padded width n) n where
  least := Nat.le_trans hwidth (le_length_padded width n)
  most := Nat.le_refl _
  digits := (isDigits_padded width n).digits
  value := ofDigitChars_padded

theorem isNumber_padded (hwidth : 0 < width) (h : n < 10 ^ width) :
    IsNumber 1 width (padded width n) n :=
  { isNumber_padded_of_length hwidth with most := Nat.le_of_eq (length_padded hwidth h) }

theorem isYear_yearText (year : Int) : IsYear (yearText year) year := by
  have hlong : IsNumber 1 _ (padded 4 year.natAbs) year.natAbs :=
    isNumber_padded_of_length (by decide)
  unfold yearText
  split
  case isTrue hyear =>
    have hshort : IsNumber 1 4 (padded 4 year.natAbs) year.natAbs :=
      isNumber_padded (by decide) (by omega)
    have hvalue := IsYear.plain hshort
    rwa [Int.natAbs_of_nonneg hyear.1] at hvalue
  case isFalse hyear =>
    by_cases hnegative : year < 0
    · have hvalue := IsYear.negative hlong
      rw [Int.ofNat_natAbs_of_nonpos (Int.le_of_lt hnegative), Int.neg_neg] at hvalue
      rwa [if_pos hnegative]
    · have hvalue := IsYear.positive hlong
      rw [Int.natAbs_of_nonneg (Int.not_lt.1 hnegative)] at hvalue
      rwa [if_neg hnegative]

end

theorem afterBlanks_of_none {P : List Char → Prop} (h : P cs) : AfterBlanks P cs :=
  ⟨[], cs, by simp, h, rfl⟩

theorem spells_of_ne_year {r : Stamp.Part} (hr : r ≠ .year) {k : Int} :
    Spells r cs k ↔ ∃ n : Nat, AfterBlanks (IsNumber 1 2 · n) cs ∧ k = n := by
  cases r <;> first | contradiction | rfl

theorem text_of_ne_year {r : Stamp.Part} (hr : r ≠ .year) (s : Stamp) :
    (Item.part r).text s = padded 2 (s.part r).natAbs := by
  cases r <;> first | contradiction | rfl

theorem spells_text {s : Stamp} (hs : s.Valid) (r : Stamp.Part) :
    Spells r ((Item.part r).text s) (s.part r) := by
  by_cases hr : r = .year
  · subst hr
    exact afterBlanks_of_none (isYear_yearText s.date.year)
  · obtain ⟨hleast, hmost⟩ := hs.part_bounds hr
    rw [spells_of_ne_year hr, text_of_ne_year hr]
    refine ⟨(s.part r).natAbs, afterBlanks_of_none (isNumber_padded (by decide) (by omega)), ?_⟩
    exact (Int.natAbs_of_nonneg hleast).symm

/-! ## The form of a pattern -/

theorem matches_nil : Matches value [] cs ↔ cs = [] := by
  constructor
  · rintro ⟨⟩
    rfl
  · rintro rfl
    exact .nil

theorem matches_part {r : Stamp.Part} : Matches value (.part r :: q) cs ↔
    ∃ ds rest, Spells r ds (value r) ∧ Matches value q rest ∧ cs = ds ++ rest := by
  constructor
  · rintro (_ | ⟨hr, hq⟩)
    exact ⟨_, _, hr, hq, rfl⟩
  · rintro ⟨ds, rest, hr, hq, rfl⟩
    exact .part hr hq

theorem matches_mark {c : Char} : Matches value (.mark c :: q) cs ↔
    ∃ rest, Matches value q rest ∧ cs = c :: rest := by
  constructor
  · rintro (_ | _ | hq)
    exact ⟨_, hq, rfl⟩
  · rintro ⟨rest, hq, rfl⟩
    exact .mark hq

theorem not_matches_fraction : ¬ Matches value (.fraction :: q) cs := by
  rintro ⟨⟩

theorem matches_text {s : Stamp} (hs : s.Valid) (hp : .fraction ∉ p) :
    Matches s.part p (p.text s) := by
  induction p with
  | nil => exact .nil
  | cons item q ih =>
      have hq := ih fun h => hp (List.mem_cons_of_mem _ h)
      cases item with
      | part r => exact .part (spells_text hs r) hq
      | mark c => exact .mark hq
      | fraction => exact absurd List.mem_cons_self hp

/-! ## Counting marks -/

theorem not_mem_of_isNumber {least most n : Nat} {c : Char} (hc : c.isDigit = false)
    (h : IsNumber least most cs n) : c ∉ cs := by
  intro hmem
  rw [h.digits c hmem] at hc
  contradiction

theorem not_mem_of_afterBlanks {P : List Char → Prop} {c : Char} (hc : Text.isBlank c = false)
    (hP : ∀ ds, P ds → c ∉ ds) (h : AfterBlanks P cs) : c ∉ cs := by
  obtain ⟨blanks, ds, hblanks, hds, rfl⟩ := h
  rw [List.mem_append, not_or]
  refine ⟨fun hmem => ?_, hP ds hds⟩
  rw [hblanks c hmem] at hc
  contradiction

theorem not_mem_of_isYear {k : Int} {c : Char} (hc : c.isDigit = false) (hsign : c ∉ ['-', '+'])
    (h : IsYear cs k) : c ∉ cs := by
  rw [List.mem_cons, List.mem_singleton, not_or] at hsign
  cases h with
  | plain h => exact not_mem_of_isNumber hc h
  | negative h => exact List.not_mem_cons_of_ne_of_not_mem hsign.1 (not_mem_of_isNumber hc h)
  | positive h => exact List.not_mem_cons_of_ne_of_not_mem hsign.2 (not_mem_of_isNumber hc h)

theorem not_mem_of_spells {r : Stamp.Part} {k : Int} {c : Char} (hc : c ∈ [':', '.'])
    (h : Spells r cs k) : c ∉ cs := by
  have hmark : c.isDigit = false ∧ Text.isBlank c = false ∧ c ∉ ['-', '+'] := by
    rw [List.mem_cons, List.mem_singleton] at hc
    rcases hc with rfl | rfl <;> decide
  obtain ⟨hdigit, hblank, hsign⟩ := hmark
  by_cases hr : r = .year
  · subst hr
    exact not_mem_of_afterBlanks hblank (fun _ => not_mem_of_isYear hdigit hsign) h
  · obtain ⟨n, hn, -⟩ := (spells_of_ne_year hr).1 h
    exact not_mem_of_afterBlanks hblank (fun _ => not_mem_of_isNumber hdigit) hn

theorem count_eq_of_matches {c : Char} (hc : c ∈ [':', '.']) (h : Matches value p cs) :
    cs.count c = p.count (.mark c) := by
  induction h with
  | nil => rfl
  | part hr _ ih =>
      rw [List.count_append, List.count_eq_zero_of_not_mem (not_mem_of_spells hc hr), ih,
        List.count_cons_of_ne (by simp), Nat.zero_add]
  | mark _ ih => simp [List.count_cons, ih]

/-- There may be more dashes in the text than in the pattern, because a year can have one. -/
theorem count_le_of_matches (c : Char) (h : Matches value p cs) :
    p.count (.mark c) ≤ cs.count c := by
  induction h with
  | nil => exact Nat.le_refl _
  | part _ _ ih =>
      rw [List.count_append, List.count_cons_of_ne (by simp)]
      exact Nat.le_trans ih (Nat.le_add_left _ _)
  | mark _ ih => simp [List.count_cons, ih]

/-! ## Stamps -/

/-- What a date alone stands for is the start of a day. -/
theorem Names.eq_midnight {s : Stamp} (h : day.Names s cs) : s = .midnight s.date := by
  have hhour := h.unnamed .hour (by decide)
  have hminute := h.unnamed .minute (by decide)
  have hsecond := h.unnamed .second (by decide)
  have hwhole := h.whole
  obtain ⟨date, hour, minute, second, nanosecond⟩ := s
  simp only [Stamp.part] at hhour hminute hsecond hwhole
  obtain rfl : hour = 0 := by omega
  obtain rfl : minute = 0 := by omega
  obtain rfl : second = 0 := by omega
  obtain rfl : nanosecond = 0 := by omega
  rfl

end Pattern
end TemporalPattern
