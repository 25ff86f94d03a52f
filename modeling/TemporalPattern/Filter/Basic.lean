import TemporalPattern.Time.Field
import TemporalPattern.TimePoint.Basic
import TemporalPattern.Value

/-!
# Filters as written

The terms of a filter before anything in them has been checked: operators, functions, units and
times are still text, and names may refer to nothing. A term without a name means the whole
pattern.
-/

namespace TemporalPattern

inductive TimeTerm where
  | literal (text : String)
  | selector (name? : Option String) (field : TimeField)
  | aggregate (choice : Aggregate) (args : List TimeTerm)
  deriving Repr

inductive IntervalTerm where
  | selector (name? : Option String) (axis : Axis)
  | literal (start stop : TimeTerm)
  | merge (i j : IntervalTerm)
  | join (i j : IntervalTerm)
  deriving Repr

/-- A length of time, in one unit or in several. -/
inductive LengthTerm where
  | unit (name : String) (amount : Int64)
  | components (c : Components)
  deriving Repr

inductive ArgumentTerm where
  | interval (i : IntervalTerm)
  | timestamp (t : TimeTerm)
  | length (l : LengthTerm)
  deriving Repr

inductive OperandTerm where
  | value (v : Value)
  | element (name : String)
  | property (name key : String)
  | timestamp (t : TimeTerm)
  deriving Repr

inductive Filter where
  | and (f g : Filter)
  | or (f g : Filter)
  | xor (f g : Filter)
  | not (f : Filter)
  | comparison (lhs : OperandTerm) (op : String) (rhs : OperandTerm)
  | intervalCall (caller : IntervalTerm) (function : String) (args : List ArgumentTerm)
  | timestampCall (caller : TimeTerm) (function : String) (args : List ArgumentTerm)
  | asOf (name? : Option String) (time : TimeTerm)
  deriving Repr

end TemporalPattern
