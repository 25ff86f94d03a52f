import TemporalPattern.Time.Calendar

/-!
# Stamps

A stamp is a date with a time of day. The sixtieth second of a minute is a leap second: it lengthens
the second before it, so that second can have up to two thousand million nanoseconds. `part` gives
the numbers in which a stamp is read and written, and there the leap second has number sixty.
-/

namespace TemporalPattern

/-- The years in which a date can be read or written. -/
def InCalendar (year : Int) : Prop :=
  -262143 ≤ year ∧ year ≤ 262142

instance (year : Int) : Decidable (InCalendar year) :=
  inferInstanceAs (Decidable (_ ∧ _))

structure Stamp where
  date : Date
  hour : Nat
  minute : Nat
  second : Nat
  nanosecond : Nat
  deriving DecidableEq, Repr

namespace Stamp

/-- The start of a day. -/
def midnight (date : Date) : Stamp :=
  ⟨date, 0, 0, 0, 0⟩

/-- Whether the date and the time of day exist. -/
structure Valid (s : Stamp) : Prop where
  year : InCalendar s.date.year
  date : s.date.Valid
  hour : s.hour ≤ 23
  minute : s.minute ≤ 59
  second : s.second ≤ 59
  nanosecond : s.nanosecond < 1000000000 ∨ s.second = 59 ∧ s.nanosecond < 2000000000

instance (s : Stamp) : Decidable s.Valid :=
  decidable_of_iff (InCalendar s.date.year ∧ s.date.Valid ∧ s.hour ≤ 23 ∧ s.minute ≤ 59 ∧
      s.second ≤ 59 ∧ (s.nanosecond < 1000000000 ∨ s.second = 59 ∧ s.nanosecond < 2000000000))
    ⟨fun ⟨hyear, hdate, hhour, hminute, hsecond, hnano⟩ =>
        ⟨hyear, hdate, hhour, hminute, hsecond, hnano⟩,
      fun ⟨hyear, hdate, hhour, hminute, hsecond, hnano⟩ =>
        ⟨hyear, hdate, hhour, hminute, hsecond, hnano⟩⟩

/-- The milliseconds from the epoch to the stamp, leap seconds before it not counted. -/
def millis (s : Stamp) : Int :=
  1000 * (86400 * s.date.dayNumber + 3600 * s.hour + 60 * s.minute + s.second) +
    s.nanosecond / 1000000

/-- The numbers that make up a stamp, up to whole seconds. -/
inductive Part where
  | year
  | month
  | day
  | hour
  | minute
  | second
  deriving DecidableEq, Repr

def part (s : Stamp) : Part → Int
  | .year => s.date.year
  | .month => s.date.month
  | .day => s.date.day
  | .hour => s.hour
  | .minute => s.minute
  | .second => s.second + s.nanosecond / 1000000000

end Stamp
end TemporalPattern
