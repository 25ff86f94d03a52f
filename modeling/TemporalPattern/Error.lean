import TemporalPattern.Time.Unit

/-!
# Errors

Why a filter cannot be compiled. Each constructor is one cause; `Error.message` words it.
-/

namespace TemporalPattern

/-- What a temporal relation is asked about. -/
inductive Caller where
  | interval
  | timestamp
  deriving DecidableEq, Repr

/-- The arguments a temporal relation accepts. -/
inductive ArgumentShape where
  | interval
  | timestamp
  | twoTimestamps
  | intervalOrTimestamp
  | intervalOrConstant
  deriving DecidableEq, Repr

inductive Error where
  | time (cause : TimeError)
  | unknownComparator (text : String)
  | unresolvedVariable (name : String)
  | unknownFunction (caller : Caller) (name : String)
  | invalidArguments (function : String) (expected : ArgumentShape)
  | emptyAggregate
  | noPatternVariables
  | unfoldNotSupported (kind : String)
  deriving DecidableEq, Repr

def Caller.text : Caller → String
  | interval => "interval"
  | timestamp => "timestamp"

def ArgumentShape.text : ArgumentShape → String
  | interval => "an interval"
  | timestamp => "a timestamp"
  | twoTimestamps => "two timestamps"
  | intervalOrTimestamp => "an interval or a timestamp"
  | intervalOrConstant => "an interval or a time constant"

namespace Error

def message : Error → String
  | time cause => "Failed to parse time: " ++ cause.message
  | unknownComparator text => s!"Unknown comparison operator '{text}'"
  | unresolvedVariable name => s!"Variable '{name}' is not declared in the pattern"
  | unknownFunction caller name => s!"Unknown {caller.text} function '{name}'"
  | invalidArguments function expected =>
    s!"Invalid arguments for '{function}': expected {expected.text}"
  | emptyAggregate => "MIN and MAX need at least one argument"
  | noPatternVariables =>
    "Global time selectors cannot be resolved without pattern variables"
  | unfoldNotSupported kind => s!"Internal error: comparisons on {kind} cannot be unfolded"

/-- Passes a result on, its error as one about a time. -/
def ofTime {α : Type} : Except TimeError α → Except Error α
  | .ok a => .ok a
  | .error cause => .error (.time cause)

theorem ofTime_eq_ok {α : Type} {x : Except TimeError α} {a : α} :
    ofTime x = .ok a ↔ x = .ok a := by
  cases x <;> simp [ofTime]

end Error
end TemporalPattern
