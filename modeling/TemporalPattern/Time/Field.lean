/-!
# Time fields

Every element carries two intervals, one on each time axis, and so four time fields.
-/

namespace TemporalPattern

/-- When something held, or when it was recorded. -/
inductive Axis where
  | valid
  | transaction
  deriving DecidableEq, Repr

inductive Endpoint where
  | start
  | stop
  deriving DecidableEq, Repr

/-- One end of an element's interval on one axis. -/
structure TimeField where
  axis : Axis
  endpoint : Endpoint
  deriving DecidableEq, Repr

namespace Axis

def text : Axis → String
  | valid => "val"
  | transaction => "tx"

def start (axis : Axis) : TimeField :=
  ⟨axis, .start⟩

def stop (axis : Axis) : TimeField :=
  ⟨axis, .stop⟩

end Axis

namespace TimeField

def isStart (field : TimeField) : Bool :=
  field.endpoint = .start

def text (field : TimeField) : String :=
  field.axis.text ++ if field.isStart then "_from" else "_to"

end TimeField
end TemporalPattern
