import TemporalPattern.Time.Calendar

/-!
# Days and dates

Every number of a day belongs to exactly one date.  Within a cycle of 400 years the digits of a year
in centuries, spans of four years and single years decide both how many days lie before it and
whether it is long, so no table of the cycle is needed.
-/

namespace TemporalPattern.Date

/-! ## Years -/

theorem isLeap_iff {year : Int} :
    isLeap year = true ↔ year % 4 = 0 ∧ (year % 100 ≠ 0 ∨ year % 400 = 0) := by
  simp [isLeap]

def yearLength (leap : Bool) : Nat :=
  (monthLengths leap).foldr (· + ·) 0

theorem yearLength_eq (leap : Bool) : yearLength leap = if leap then 366 else 365 := by
  cases leap <;> rfl

section

variable {c k q y : Int} (hk : 0 ≤ k ∧ k ≤ 3) (hq : 0 ≤ q ∧ q ≤ 24) (hy : 0 ≤ y ∧ y ≤ 3)

include hk hq hy

theorem daysBeforeYear_cycles :
    daysBeforeYear (400 * c + 100 * k + 4 * q + y + 1) =
      146097 * c + 36524 * k + 1461 * q + 365 * y := by
  have hfour : (400 * c + 100 * k + 4 * q + y) / 4 = 100 * c + 25 * k + q := by omega
  have hhundred : (400 * c + 100 * k + 4 * q + y) / 100 = 4 * c + k := by omega
  have hfourhundred : (400 * c + 100 * k + 4 * q + y) / 400 = c := by omega
  rw [daysBeforeYear, Int.add_sub_cancel, hfour, hhundred, hfourhundred]
  omega

/-- The last of four years is long, unless it ends a century other than the last of four. -/
theorem isLeap_cycles :
    isLeap (400 * c + 100 * k + 4 * q + y + 1) = true ↔ y = 3 ∧ (q = 24 → k = 3) := by
  rw [isLeap_iff]
  omega

end

theorem splitYears_spec (days : Int) :
    0 ≤ (splitYears days).2 ∧
      (splitYears days).2 < yearLength (isLeap ((splitYears days).1 + 1)) ∧
      daysBeforeYear ((splitYears days).1 + 1) + (splitYears days).2 = days := by
  simp only [splitYears]
  generalize hk : min (days % 146097 / 36524) 3 = k
  generalize hq : (days % 146097 - 36524 * k) / 1461 = q
  generalize hy : min ((days % 146097 - 36524 * k) % 1461 / 365) 3 = y
  have hk' : 0 ≤ k ∧ k ≤ 3 := by omega
  have hq' : 0 ≤ q ∧ q ≤ 24 := by omega
  have hy' : 0 ≤ y ∧ y ≤ 3 := by omega
  simp only [yearLength_eq, daysBeforeYear_cycles hk' hq' hy', isLeap_cycles hk' hq' hy']
  refine ⟨by omega, ?_, by omega⟩
  split <;> omega

theorem daysBeforeYear_succ (year : Int) :
    daysBeforeYear (year + 1) = daysBeforeYear year + yearLength (isLeap year) := by
  simp only [daysBeforeYear, yearLength_eq, isLeap_iff]
  split <;> omega

theorem daysBeforeYear_mono {year later : Int} (h : year ≤ later) :
    daysBeforeYear year ≤ daysBeforeYear later := by
  simp only [daysBeforeYear]
  omega

/-! ## Months -/

theorem splitMonths_spec {lengths : List Nat} {day : Nat} (h : day < lengths.foldr (· + ·) 0) :
    ∃ length, lengths[(splitMonths lengths day).1]? = some length ∧
      (splitMonths lengths day).2 < length ∧
      (lengths.take (splitMonths lengths day).1).foldr (· + ·) 0 + (splitMonths lengths day).2 =
        day := by
  induction lengths generalizing day with
  | nil => simp at h
  | cons length later ih =>
      rw [List.foldr_cons] at h
      rw [splitMonths]
      split
      case isTrue hday => exact ⟨length, rfl, hday, Nat.zero_add day⟩
      case isFalse hday =>
        have hrest : day - length < later.foldr (· + ·) 0 := by omega
        obtain ⟨next, hnext, hlt, hsum⟩ := ih hrest
        refine ⟨next, hnext, hlt, ?_⟩
        simp only [List.take_succ_cons, List.foldr_cons]
        omega

theorem monthLength_le {leap : Bool} {month : Nat} (h : month ≤ 12) :
    monthLength leap month ≤ 31 := by
  have hall : ∀ leap, ∀ month ≤ 12, monthLength leap month ≤ 31 := by decide
  exact hall leap month h

/-- The months do not overlap and end with the year. -/
theorem daysBeforeMonth_add_le (leap : Bool) :
    ∀ month ≤ 12, 1 ≤ month →
      daysBeforeMonth leap month + monthLength leap month ≤ yearLength leap ∧
      ∀ later ≤ 12, month < later →
        daysBeforeMonth leap month + monthLength leap month ≤ daysBeforeMonth leap later := by
  cases leap <;> decide

/-! ## Dates -/

/-- The days of the year that lie before a date. -/
def dayOfYear (d : Date) : Nat :=
  daysBeforeMonth (isLeap d.year) d.month + (d.day - 1)

theorem dayNumber_eq {d : Date} (h : d.Valid) :
    d.dayNumber = daysBeforeYear d.year + d.dayOfYear - epoch := by
  obtain ⟨-, -, hday, -⟩ := h
  simp only [dayNumber, dayOfYear]
  omega

theorem dayOfYear_lt {d : Date} (h : d.Valid) : d.dayOfYear < yearLength (isLeap d.year) := by
  obtain ⟨hmonth, hmonth', hday, hday'⟩ := h
  have hyear := (daysBeforeMonth_add_le (isLeap d.year) d.month hmonth' hmonth).1
  unfold dayOfYear
  omega

/-- The number of a day in a year has one month and one day. -/
theorem eq_of_dayOfYear_eq {d e : Date} (hd : d.Valid) (he : e.Valid) (hyear : d.year = e.year)
    (h : d.dayOfYear = e.dayOfYear) : d = e := by
  obtain ⟨hmonth, hmonth', hday, hday'⟩ := hd
  obtain ⟨hmonthe, hmonthe', hdaye, hdaye'⟩ := he
  have hbefore := (daysBeforeMonth_add_le (isLeap d.year) d.month hmonth' hmonth).2 e.month hmonthe'
  have hafter := (daysBeforeMonth_add_le (isLeap e.year) e.month hmonthe' hmonthe).2 d.month hmonth'
  obtain ⟨year, month, day⟩ := d
  obtain ⟨year', month', day'⟩ := e
  obtain rfl : year = year' := hyear
  simp only [dayOfYear] at *
  obtain rfl : month = month' := by
    rcases Nat.lt_trichotomy month month' with hlt | heq | hgt
    · have := hbefore hlt
      omega
    · exact heq
    · have := hafter hgt
      omega
  obtain rfl : day = day' := by omega
  rfl

theorem eq_of_dayNumber_eq {d e : Date} (hd : d.Valid) (he : e.Valid)
    (h : d.dayNumber = e.dayNumber) : d = e := by
  have hlast := dayOfYear_lt hd
  have hlaste := dayOfYear_lt he
  rw [dayNumber_eq hd, dayNumber_eq he] at h
  have hnext (d e : Date) (hlt : d.year < e.year) :
      daysBeforeYear d.year + yearLength (isLeap d.year) ≤ daysBeforeYear e.year := by
    rw [← daysBeforeYear_succ]
    exact daysBeforeYear_mono hlt
  have hyear : d.year = e.year := by
    rcases Int.lt_trichotomy d.year e.year with hlt | heq | hgt
    · have := hnext d e hlt
      omega
    · exact heq
    · have := hnext e d hgt
      omega
  apply eq_of_dayOfYear_eq hd he hyear
  rw [hyear] at h
  omega

/-- Years and months, split off the number of a day. -/
theorem ofDayNumber_spec (n : Int) :
    (ofDayNumber n).Valid ∧ (ofDayNumber n).dayNumber = n := by
  obtain ⟨hrest, hlt, hyears⟩ := splitYears_spec (n + epoch)
  have hday : (splitYears (n + epoch)).2.toNat <
      yearLength (isLeap ((splitYears (n + epoch)).1 + 1)) := by
    omega
  obtain ⟨length, hlength, hlast, hmonths⟩ := splitMonths_spec hday
  have hmonth := (List.getElem?_eq_some_iff.1 hlength).1
  have hcount (leap : Bool) : (monthLengths leap).length = 12 := rfl
  rw [hcount] at hmonth
  constructor
  · simp only [Valid, ofDayNumber, monthLength, Nat.add_sub_cancel, hlength, Option.getD_some]
    omega
  · simp only [dayNumber, ofDayNumber, daysBeforeMonth, Nat.add_sub_cancel]
    omega

end TemporalPattern.Date
