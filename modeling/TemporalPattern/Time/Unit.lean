import TemporalPattern.Time.Millis

/-!
# Time units

The units in which lengths of time are written, and the lengths they give. A length is never
negative; its parts in smaller units stay below one of the next larger unit.
-/

namespace TemporalPattern

inductive TimeUnit where
  | days
  | hours
  | minutes
  | seconds
  | millis
  deriving DecidableEq, Repr

/-- What can be wrong with a text or a number that stands for a time. -/
inductive TimeError where
  | unknownUnit (text : String)
  | negative (unit : TimeUnit) (value : Int64)
  | outOfRange (unit : TimeUnit) (value limit : Int64)
  | overflow
  | malformedInstant (text : String)
  deriving DecidableEq, Repr

namespace TimeUnit

def name : TimeUnit → String
  | days => "Days"
  | hours => "Hours"
  | minutes => "Minutes"
  | seconds => "Seconds"
  | millis => "Millis"

/-- The number of milliseconds in one unit. -/
def size : TimeUnit → Millis
  | days => 86400000
  | hours => 3600000
  | minutes => 60000
  | seconds => 1000
  | millis => 1

/-- Reads the name of a unit, singular or plural, without regard to the case of ASCII letters. -/
def ofName (text : String) : Except TimeError TimeUnit :=
  match text.map Char.toLower with
  | "days" | "day" => .ok days
  | "hours" | "hour" => .ok hours
  | "minutes" | "minute" => .ok minutes
  | "seconds" | "second" => .ok seconds
  | "millis" | "milli" | "milliseconds" | "millisecond" => .ok millis
  | _ => .error (.unknownUnit text)

/-- The length of `amount` units. -/
def duration (unit : TimeUnit) (amount : Int64) : Except TimeError Millis :=
  if amount < 0 then .error (.negative unit amount)
  else match Millis.ofInt? (amount.toInt * unit.size.toInt) with
    | some length => .ok length
    | none => .error .overflow

/-- The length of `amount` units where at most `limit` are allowed. -/
def durationUpTo (unit : TimeUnit) (limit amount : Int64) : Except TimeError Millis :=
  if 0 ≤ amount ∧ amount ≤ limit then unit.duration amount
  else .error (.outOfRange unit amount limit)

end TimeUnit

/-- A length of time in mixed units. -/
structure Components where
  days : Int64
  hours : Int64
  minutes : Int64
  seconds : Int64
  millis : Int64
  deriving DecidableEq, Repr

namespace Components

/-- The sum of all components in milliseconds. -/
def total (c : Components) : Int :=
  86400000 * c.days.toInt + 3600000 * c.hours.toInt + 60000 * c.minutes.toInt +
    1000 * c.seconds.toInt + c.millis.toInt

/-- Whether no component is negative or as long as one of the next larger unit. -/
def InRange (c : Components) : Prop :=
  0 ≤ c.days.toInt ∧ (0 ≤ c.hours.toInt ∧ c.hours.toInt ≤ 23) ∧
    (0 ≤ c.minutes.toInt ∧ c.minutes.toInt ≤ 59) ∧ (0 ≤ c.seconds.toInt ∧ c.seconds.toInt ≤ 59) ∧
    (0 ≤ c.millis.toInt ∧ c.millis.toInt ≤ 999)

/-- The lengths of the components, those of the largest unit first. Only the number of days is
without a limit of its own; the first component out of range decides the error. -/
def parts (c : Components) : Except TimeError (List Millis) := do
  let days ← TimeUnit.days.duration c.days
  let hours ← TimeUnit.hours.durationUpTo 23 c.hours
  let minutes ← TimeUnit.minutes.durationUpTo 59 c.minutes
  let seconds ← TimeUnit.seconds.durationUpTo 59 c.seconds
  let millis ← TimeUnit.millis.durationUpTo 999 c.millis
  return [days, hours, minutes, seconds, millis]

/-- The whole length. -/
def duration (c : Components) : Except TimeError Millis := do
  match Millis.sum? (← c.parts) with
  | some length => return length
  | none => throw .overflow

end Components

namespace Millis

/-- The text of a length in the largest unit that divides it; the zero length is in milliseconds. -/
def lengthText (length : Millis) : String :=
  let fits (unit : TimeUnit) := length ≠ 0 ∧ length.toInt.tmod unit.size.toInt = 0
  let unit := ([.days, .hours, .minutes, .seconds] : List TimeUnit).find? fun u => fits u
  let unit := unit.getD .millis
  s!"{unit.name}({length.toInt.tdiv unit.size.toInt})"

end Millis

namespace TimeError

def message : TimeError → String
  | unknownUnit text => s!"'{text}' is not a valid unit."
  | negative unit value => s!"Negative {unit.name} value {value} is not supported."
  | outOfRange unit value limit =>
    s!"{unit.name} value {value} is out of range, expected 0 to {limit}."
  | overflow => "Duration overflows the millisecond range."
  | malformedInstant text =>
    s!"'{text}' is not a valid datetime, valid formats are 'now', %Y-%m-%d, %Y-%m-%dT%H:%M" ++
      " and %Y-%m-%dT%H:%M:%S."

end TimeError
end TemporalPattern
