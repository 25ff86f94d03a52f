import TemporalPattern.Error
import TemporalPattern.Time.Field
import TemporalPattern.Time.Instant

/-!
# Time points

Terms for points in time and for lengths of time between them. A selector names a time field of a
pattern variable; under the reserved name `globalVariable` it means that field of the whole
pattern. Functions on terms come in pairs, the second one taking the arguments of an aggregate one
by one.
-/

namespace TemporalPattern

/-- The variable of a selector that refers to the whole pattern. -/
def globalVariable : String := "__global"

/-- How an aggregate chooses among its arguments. -/
inductive Aggregate where
  | max
  | min
  deriving DecidableEq, Repr

inductive TimePoint where
  | literal (time : Millis)
  | selector (name : String) (field : TimeField)
  | constant (length : Millis)
  /-- The length of time from `start` to `stop`. -/
  | duration (start stop : TimePoint)
  /-- The point `length` later than `point`. -/
  | plus (point : TimePoint) (length : Millis)
  /-- The latest or the earliest of a list. -/
  | aggregate (choice : Aggregate) (args : List TimePoint)
  deriving Repr

namespace Aggregate

def text : Aggregate → String
  | max => "MAX"
  | min => "MIN"

/-- The latest or the earliest of some times, if there are any. -/
def choose? : Aggregate → List Millis → Option Millis
  | max, times => times.max?
  | min, times => times.min?

/-- The aggregate of a list of terms, which for a single one is that term itself. -/
def of (choice : Aggregate) : List TimePoint → Except Error TimePoint
  | [] => .error .emptyAggregate
  | [p] => .ok p
  | args => .ok (.aggregate choice args)

theorem exists_of_iff {choice : Aggregate} {args : List TimePoint} :
    (∃ p, choice.of args = .ok p) ↔ args ≠ [] := by
  unfold Aggregate.of
  split <;> simp_all

end Aggregate

namespace TimePoint

/-- The selector of a field of the whole pattern. -/
def global (field : TimeField) : TimePoint :=
  .selector globalVariable field

/-- What a term is called. -/
def kindName : TimePoint → String
  | literal _ => "time literal"
  | selector _ _ => "time selector"
  | constant _ => "time constant"
  | duration _ _ => "duration"
  | plus _ _ => "shifted time point"
  | aggregate choice _ => choice.text

def isAggregate : TimePoint → Bool
  | aggregate _ _ => true
  | _ => false

mutual

/-- The selectors of a term from left to right, with repetitions. -/
def selectors : TimePoint → List (String × TimeField)
  | literal _ | constant _ => []
  | selector name field => [(name, field)]
  | duration start stop => start.selectors ++ stop.selectors
  | plus point _ => point.selectors
  | aggregate _ args => selectorsEach args

def selectorsEach : List TimePoint → List (String × TimeField)
  | [] => []
  | p :: ps => p.selectors ++ selectorsEach ps

end

/-- The pattern variables of a term from left to right, with repetitions. The reserved name is not
one of them. -/
def mentions (p : TimePoint) : List String :=
  (p.selectors.map Prod.fst).filter (· ≠ globalVariable)

/-- Whether a selector of the whole pattern occurs anywhere in a term. -/
def isGlobal (p : TimePoint) : Bool :=
  p.selectors.any (·.1 = globalVariable)

mutual

/-- The value of a term, if it depends on no selector and fits. -/
def evaluate : TimePoint → Option Millis
  | literal time => some time
  | selector _ _ => none
  | constant length => some length
  | duration start stop => do Millis.ofInt? ((← stop.evaluate).toInt - (← start.evaluate).toInt)
  | plus point length => do Millis.ofInt? ((← point.evaluate).toInt + length.toInt)
  | aggregate choice args => do choice.choose? (← evaluateEach args)

def evaluateEach : List TimePoint → Option (List Millis)
  | [] => some []
  | p :: ps => do return (← p.evaluate) :: (← evaluateEach ps)

end

mutual

def render : TimePoint → String
  | literal time => time.instantText
  | selector name field =>
    if name = globalVariable then field.text else s!"{name}.{field.text}"
  | constant length => length.lengthText
  | duration start stop => s!"DURATION({start.render}, {stop.render})"
  | plus point length => s!"({point.render} + {length.lengthText})"
  | aggregate choice args => choice.text ++ "(" ++ String.intercalate ", " (renderEach args) ++ ")"

def renderEach : List TimePoint → List String
  | [] => []
  | p :: ps => p.render :: renderEach ps

end

theorem selectorsEach_eq (ps : List TimePoint) : selectorsEach ps = ps.flatMap selectors := by
  induction ps with
  | nil => rfl
  | cons p ps ih => simp [selectorsEach, ih]

theorem evaluateEach_eq (ps : List TimePoint) : evaluateEach ps = ps.mapM evaluate := by
  induction ps with
  | nil => rfl
  | cons p ps ih => simp [evaluateEach, ih]

end TimePoint
end TemporalPattern
