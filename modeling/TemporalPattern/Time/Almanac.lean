import TemporalPattern.Time.Millis
import TemporalPattern.Time.Pattern

/-!
# Almanacs

What the program takes from its library of dates: reading dates and stamps by a pattern, writing
them, and conversion to milliseconds and back. The library is a parameter; `Almanac.Documented` is
what its documentation says of these functions. All times are universal times.
-/

namespace TemporalPattern

structure Almanac where
  readDate? : Pattern → String → Option Date
  readStamp? : Pattern → String → Option Stamp
  /-- The stamp of a date with hour, minute and second. -/
  at? : Date → Nat → Nat → Nat → Option Stamp
  millis : Stamp → Millis
  stamp? : Millis → Option Stamp
  write : Pattern → Stamp → String

structure Almanac.Documented (a : Almanac) : Prop where
  /-- The whole text has to be a date of the calendar: marks match exactly, numbers are read up to
  their width, with blanks before them allowed. -/
  readDate? : ∀ (text : String) (date : Date),
    a.readDate? .day text = some date ↔ Pattern.day.Names (.midnight date) text.toList
  /-- The same for a date with a time of day; a second that is left out is zero, and a sixtieth
  second is the leap second. -/
  readStamp? : ∀ p ∈ [Pattern.toSecond, Pattern.toMinute], ∀ (text : String) (s : Stamp),
    a.readStamp? p text = some s ↔ p.Names s text.toList
  /-- Every date of the calendar has all its times of day. -/
  at? : ∀ (date : Date) (hour minute second : Nat) (s : Stamp),
    a.at? date hour minute second = some s ↔
      s.Valid ∧ s = ⟨date, hour, minute, second, 0⟩
  /-- Non-leap milliseconds since the epoch. -/
  millis : ∀ s : Stamp, s.Valid → (a.millis s).toInt = s.millis
  /-- An instant has a stamp within the calendar, never in a leap second. -/
  stamp? : ∀ (time : Millis) (s : Stamp), a.stamp? time = some s ↔
    s.Valid ∧ s.millis = time.toInt ∧ s.nanosecond < 1000000000 ∧ s.nanosecond % 1000000 = 0
  /-- Numbers are filled up with zeros, to four digits in a year and to two in other parts. -/
  write : ∀ (p : Pattern) (s : Stamp), s.Valid → a.write p s = .ofList (p.text s)

end TemporalPattern
