import TemporalPattern.Time.Gregorian
import TemporalPattern.Time.Unit

/-!
# Instants as text

Reading and writing points in time. A literal is a date, a date with hours, minutes and seconds, or
a date with hours and minutes, tried in this order. An instant is written as a date if it is
midnight, else with the time of day, else with milliseconds, and as a bare number outside the
calendar.
-/

namespace TemporalPattern

/-- A point in time named by a literal: the current instant, or a fixed one. -/
inductive Moment where
  | now
  | fixed (time : Millis)
  deriving DecidableEq, Repr

/-- The instant meant when the current one is `current`. -/
def Moment.time (current : Millis) : Moment → Millis
  | now => current
  | fixed time => time

namespace Almanac

variable (a : Almanac)

/-- The instant written by a text. -/
def instant? (text : String) : Option Millis :=
  let date := (a.readDate? .day text).bind (a.at? · 0 0 0)
  (date <|> a.readStamp? .toSecond text <|> a.readStamp? .toMinute text).map a.millis

/-- Reads a time literal. Blanks around it and the case of `now` do not matter. -/
def parse (text : String) : Except TimeError Moment :=
  let literal := Text.trim text
  if literal.map Char.toLower = "now" then .ok .now
  else match a.instant? literal with
    | some time => .ok (.fixed time)
    | none => .error (.malformedInstant text)

/-- The text of an instant. -/
def instantText (time : Millis) : String :=
  match a.stamp? time with
  | some s =>
    if s.nanosecond = 0 then
      if s.hour = 0 ∧ s.minute = 0 ∧ s.second = 0 then a.write .day s else a.write .toSecond s
    else a.write .toMilli s
  | none => toString time.toInt

end Almanac

/-- Whether an instant falls on a date that can be written. -/
def Millis.HasDate (time : Millis) : Prop :=
  InCalendar (Date.ofDayNumber (time.toInt / 86400000)).year

instance (time : Millis) : Decidable time.HasDate :=
  inferInstanceAs (Decidable (InCalendar _))

def Moment.parse : String → Except TimeError Moment :=
  Almanac.gregorian.parse

def Millis.instantText : Millis → String :=
  Almanac.gregorian.instantText

end TemporalPattern
