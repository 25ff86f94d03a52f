/-!
# The Gregorian calendar

Dates of the proleptic Gregorian calendar, with a year zero, and their numbers counted in days from
1970-01-01. `dayNumber` counts days before the year, before the month and before the day;
`ofDayNumber` takes whole cycles of 400, 100, 4 and 1 years off again.
-/

namespace TemporalPattern

structure Date where
  year : Int
  month : Nat
  day : Nat
  deriving DecidableEq, Repr

namespace Date

/-- Every fourth year is long, of the full centuries only every fourth. -/
def isLeap (year : Int) : Bool :=
  year % 4 = 0 && (year % 100 ≠ 0 || year % 400 = 0)

/-- The lengths of the twelve months. -/
def monthLengths (leap : Bool) : List Nat :=
  [31, if leap then 29 else 28, 31, 30, 31, 30, 31, 31, 30, 31, 30, 31]

/-- The number of days of a month, counted from one. -/
def monthLength (leap : Bool) (month : Nat) : Nat :=
  (monthLengths leap)[month - 1]?.getD 0

/-- Whether the month and the day exist. -/
def Valid (d : Date) : Prop :=
  1 ≤ d.month ∧ d.month ≤ 12 ∧ 1 ≤ d.day ∧ d.day ≤ monthLength (isLeap d.year) d.month

instance (d : Date) : Decidable d.Valid :=
  inferInstanceAs (Decidable (_ ∧ _))

/-- Days from 0001-01-01 to the first day of a year. -/
def daysBeforeYear (year : Int) : Int :=
  let past := year - 1
  365 * past + past / 4 - past / 100 + past / 400

/-- Days from the first day of the year to the first day of a month. -/
def daysBeforeMonth (leap : Bool) (month : Nat) : Nat :=
  ((monthLengths leap).take (month - 1)).foldr (· + ·) 0

/-- Days from 0001-01-01 to 1970-01-01. -/
def epoch : Int := 719162

/-- The number of the day, where 1970-01-01 has number zero. -/
def dayNumber (d : Date) : Int :=
  daysBeforeYear d.year + daysBeforeMonth (isLeap d.year) d.month + (d.day - 1 : Int) - epoch

/-- The number of whole months in `day` days of a year, and the days left over. -/
def splitMonths : List Nat → Nat → Nat × Nat
  | [], day => (0, day)
  | length :: later, day =>
    if day < length then (0, day)
    else
      let (months, rest) := splitMonths later (day - length)
      (months + 1, rest)

/-- The number of whole years in `days` days from 0001-01-01, and the days left over. The last
century of four and the last year of four are one day longer than the others. -/
def splitYears (days : Int) : Int × Int :=
  let cycles := days / 146097
  let days := days % 146097
  let centuries := min (days / 36524) 3
  let days := days - 36524 * centuries
  let quadrennia := days / 1461
  let days := days % 1461
  let years := min (days / 365) 3
  (400 * cycles + 100 * centuries + 4 * quadrennia + years, days - 365 * years)

/-- The date with a given number. -/
def ofDayNumber (n : Int) : Date :=
  let (years, rest) := splitYears (n + epoch)
  let (months, day) := splitMonths (monthLengths (isLeap (years + 1))) rest.toNat
  ⟨years + 1, months + 1, day + 1⟩

end Date
end TemporalPattern
