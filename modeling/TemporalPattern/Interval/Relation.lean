import TemporalPattern.Interval.Basic

/-!
# Temporal relations

The relations a filter may ask for between an interval or a time point and its arguments. Each has
a name and the predicates it stands for; the conditions of the intervals involved follow in the
order in which the intervals are written.
-/

namespace TemporalPattern

/-- An argument of a temporal relation. -/
inductive Argument where
  | interval (i : Constrained Interval)
  | timestamp (p : TimePoint)
  | constant (length : Millis)

/-- A relation of an interval to its arguments. -/
inductive IntervalRelation where
  | overlaps
  | fromTo
  | between
  | precedes
  | immediatelyPrecedes
  | succeeds
  | immediatelySucceeds
  | contains
  | equals
  | longerThan
  | shorterThan
  | lengthAtLeast
  | lengthAtMost
  deriving DecidableEq, Repr

/-- A relation of a time point to its arguments. -/
inductive TimestampRelation where
  | before
  | after
  | precedes
  | succeeds
  deriving DecidableEq, Repr

namespace Argument

def constraints : Argument → List Predicate
  | interval i => i.constraints
  | timestamp _ | constant _ => []

end Argument

namespace IntervalRelation

def all : List IntervalRelation :=
  [overlaps, fromTo, between, precedes, immediatelyPrecedes, succeeds, immediatelySucceeds,
    contains, equals, longerThan, shorterThan, lengthAtLeast, lengthAtMost]

def name : IntervalRelation → String
  | overlaps => "overlaps"
  | fromTo => "fromTo"
  | between => "between"
  | precedes => "precedes"
  | immediatelyPrecedes => "immediatelyPrecedes"
  | succeeds => "succeeds"
  | immediatelySucceeds => "immediatelySucceeds"
  | contains => "contains"
  | equals => "equals"
  | longerThan => "longerThan"
  | shorterThan => "shorterThan"
  | lengthAtLeast => "lengthAtLeast"
  | lengthAtMost => "lengthAtMost"

def ofName (text : String) : Except Error IntervalRelation :=
  match all.find? (·.name = text) with
  | some relation => .ok relation
  | none => .error (.unknownFunction .interval text)

def expected : IntervalRelation → ArgumentShape
  | fromTo | between => .twoTimestamps
  | precedes | succeeds | contains => .intervalOrTimestamp
  | longerThan | shorterThan | lengthAtLeast | lengthAtMost => .intervalOrConstant
  | overlaps | immediatelyPrecedes | immediatelySucceeds | equals => .interval

/-- How the length of an interval is compared with another length. The interval has to be well
formed. -/
def compareLength (op : Comparator) (i : Interval) : Argument → Option Predicate
  | .interval j =>
    some ((i.wellFormed.and (i.length.compare op j.value.length)).and j.value.wellFormed)
  | .constant length => some (i.wellFormed.and (i.length.compare op (.constant length)))
  | .timestamp _ => none

/-- The predicate a relation stands for, if it accepts the arguments. -/
def predicate? : IntervalRelation → Interval → List Argument → Option Predicate
  | overlaps, i, [.interval j] =>
    some ((i.overlap j.value).start.compare .lt (i.overlap j.value).stop)
  | fromTo, i, [.timestamp x, .timestamp y] =>
    some ((i.start.compare .lt y).and (i.stop.compare .gt x))
  | between, i, [.timestamp x, .timestamp y] =>
    some ((i.start.compare .lte y).and (i.stop.compare .gt x))
  | precedes, i, [.interval j] => some (i.stop.compare .lte j.value.start)
  | precedes, i, [.timestamp x] => some (i.stop.compare .lte x)
  | immediatelyPrecedes, i, [.interval j] => some (i.stop.compare .eq j.value.start)
  | succeeds, i, [.interval j] => some (i.start.compare .gte j.value.stop)
  | succeeds, i, [.timestamp x] => some (i.start.compare .gte x)
  | immediatelySucceeds, i, [.interval j] => some (i.start.compare .eq j.value.stop)
  | contains, i, [.interval j] =>
    some ((i.start.compare .lte j.value.start).and (i.stop.compare .gte j.value.stop))
  | contains, i, [.timestamp x] => some (i.containsPoint x)
  | equals, i, [.interval j] =>
    some ((i.start.compare .eq j.value.start).and (i.stop.compare .eq j.value.stop))
  | longerThan, i, [arg] => compareLength .gt i arg
  | shorterThan, i, [arg] => compareLength .lt i arg
  | lengthAtLeast, i, [arg] => compareLength .gte i arg
  | lengthAtMost, i, [arg] => compareLength .lte i arg
  | _, _, _ => none

/-- The predicate of a relation, then the conditions of its caller and of its arguments. -/
def apply (relation : IntervalRelation) (caller : Constrained Interval) (args : List Argument) :
    Except Error Predicate :=
  match relation.predicate? caller.value args with
  | some p => .ok (p.conjoin (caller.constraints ++ args.flatMap Argument.constraints))
  | none => .error (.invalidArguments relation.name relation.expected)

end IntervalRelation

namespace TimestampRelation

def all : List TimestampRelation :=
  [before, after, precedes, succeeds]

def name : TimestampRelation → String
  | before => "before"
  | after => "after"
  | precedes => "precedes"
  | succeeds => "succeeds"

def ofName (text : String) : Except Error TimestampRelation :=
  match all.find? (·.name = text) with
  | some relation => .ok relation
  | none => .error (.unknownFunction .timestamp text)

def expected : TimestampRelation → ArgumentShape
  | before | after => .timestamp
  | precedes | succeeds => .intervalOrTimestamp

/-- The predicate a relation stands for, if it accepts the arguments. -/
def predicate? : TimestampRelation → TimePoint → List Argument → Option Predicate
  | before, p, [.timestamp x] => some (p.compare .lt x)
  | after, p, [.timestamp x] => some (p.compare .gt x)
  | precedes, p, [.interval i] => some (p.compare .lte i.value.start)
  | precedes, p, [.timestamp x] => some (p.compare .lte x)
  | succeeds, p, [.interval i] => some (p.compare .gte i.value.stop)
  | succeeds, p, [.timestamp x] => some (p.compare .gte x)
  | _, _, _ => none

/-- The predicate of a relation, then the conditions of its arguments. -/
def apply (relation : TimestampRelation) (caller : TimePoint) (args : List Argument) :
    Except Error Predicate :=
  match relation.predicate? caller args with
  | some p => .ok (p.conjoin (args.flatMap Argument.constraints))
  | none => .error (.invalidArguments relation.name relation.expected)

end TimestampRelation

/-- The predicate that an element, or the whole pattern, was recorded at a point. -/
def Predicate.asOf (name? : Option String) (p : TimePoint) : Predicate :=
  (Interval.ofElement (name?.getD globalVariable) .transaction).containsPoint p

end TemporalPattern
