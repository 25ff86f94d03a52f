import TemporalPattern.TimePoint.Basic

/-!
# Selectors of the whole pattern

The whole pattern holds while all of its elements do, so its start is the latest start of any
variable and its stop the earliest stop.
-/

namespace TemporalPattern

/-- How a field of the whole pattern is taken from that field of its elements. -/
def TimeField.aggregate (field : TimeField) : Aggregate :=
  match field.endpoint with
  | .start => .max
  | .stop => .min

namespace TimePoint

/-- The term for a selector in a pattern with the given variables. -/
def resolveSelector (names : List String) (name : String) (field : TimeField) :
    Except Error TimePoint :=
  if name ≠ globalVariable then .ok (.selector name field)
  else if names.isEmpty then .error .noPatternVariables
  else field.aggregate.of (names.map (.selector · field))

mutual

/-- Replaces every selector of the whole pattern. -/
def resolve (names : List String) : TimePoint → Except Error TimePoint
  | literal time => .ok (.literal time)
  | selector name field => resolveSelector names name field
  | constant length => .ok (.constant length)
  | duration start stop => do
    let start ← start.resolve names
    let stop ← stop.resolve names
    return .duration start stop
  | plus point length => do
    let point ← point.resolve names
    return .plus point length
  | aggregate choice args => do
    let args ← resolveEach names args
    return .aggregate choice args

def resolveEach (names : List String) : List TimePoint → Except Error (List TimePoint)
  | [] => .ok []
  | p :: ps => do
    let p ← p.resolve names
    let ps ← resolveEach names ps
    return p :: ps

end

theorem resolveEach_eq (names : List String) (ps : List TimePoint) :
    resolveEach names ps = ps.mapM (resolve names) := by
  induction ps with
  | nil => rfl
  | cons p ps ih => simp [resolveEach, ih]

end TimePoint
end TemporalPattern
