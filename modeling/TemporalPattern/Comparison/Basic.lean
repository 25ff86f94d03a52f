import TemporalPattern.Comparator
import TemporalPattern.Logic.Cnf
import TemporalPattern.TimePoint.Resolve
import TemporalPattern.Value

/-!
# Comparisons

A comparison relates two operands: values, elements, properties of elements, or time points.
Predicates are formulas over comparisons.
-/

namespace TemporalPattern

/-- The property under which the label of an element is compared. -/
def labelProperty : String := "__label__"

inductive Operand where
  | value (v : Value)
  /-- The identity of an element. -/
  | element (name : String)
  | property (name key : String)
  | time (point : TimePoint)
  deriving Repr

structure Comparison where
  lhs : Operand
  op : Comparator
  rhs : Operand
  deriving Repr

/-- A formula over comparisons. -/
abbrev Predicate := Formula Comparison

namespace Operand

def label (name : String) : Operand :=
  .property name labelProperty

def timePoint? : Operand → Option TimePoint
  | time point => some point
  | _ => none

def isTemporal : Operand → Bool
  | time _ => true
  | _ => false

def isGlobal : Operand → Bool
  | time point => point.isGlobal
  | _ => false

/-- The pattern variables of an operand from left to right, with repetitions. -/
def mentions : Operand → List String
  | value _ => []
  | element name | property name _ => [name]
  | time point => point.mentions

/-- The value that stands in an operand, if there is one. -/
def values : Operand → List Value
  | value v => [v]
  | element _ | property _ _ | time _ => []

def resolve (names : List String) : Operand → Except Error Operand
  | time point => do return .time (← point.resolve names)
  | operand => .ok operand

/-- The text of an operand: texts are quoted, without any escapes. -/
def render : Operand → String
  | value (.text s) => s!"\"{s}\""
  | value v => v.render
  | element name => name
  | property name key => s!"{name}.{key}"
  | time point => point.render

end Operand

namespace Comparison

/-- The comparison of two time points. -/
def ofTimes (lhs : TimePoint) (op : Comparator) (rhs : TimePoint) : Comparison :=
  ⟨.time lhs, op, .time rhs⟩

/-- The same comparison with its operands the other way round. -/
def switch (c : Comparison) : Comparison :=
  ⟨c.rhs, c.op.converse, c.lhs⟩

/-- The opposite comparison. -/
def negate (c : Comparison) : Comparison :=
  ⟨c.lhs, c.op.inverse, c.rhs⟩

def isTemporal (c : Comparison) : Bool :=
  c.lhs.isTemporal || c.rhs.isTemporal

def isGlobal (c : Comparison) : Bool :=
  c.lhs.isGlobal || c.rhs.isGlobal

/-- The pattern variables of a comparison from left to right, with repetitions. -/
def mentions (c : Comparison) : List String :=
  c.lhs.mentions ++ c.rhs.mentions

def values (c : Comparison) : List Value :=
  c.lhs.values ++ c.rhs.values

def resolve (names : List String) (c : Comparison) : Except Error Comparison := do
  let lhs ← c.lhs.resolve names
  let rhs ← c.rhs.resolve names
  return ⟨lhs, c.op, rhs⟩

def render (c : Comparison) : String :=
  s!"({c.lhs.render} {c.op.symbol} {c.rhs.render})"

@[simp] theorem switch_switch (c : Comparison) : c.switch.switch = c := by
  simp [switch]

@[simp] theorem negate_negate (c : Comparison) : c.negate.negate = c := by
  simp [negate]

end Comparison

/-- The predicate that two time points compare by an operator. -/
def TimePoint.compare (p : TimePoint) (op : Comparator) (q : TimePoint) : Predicate :=
  .atom (.ofTimes p op q)

end TemporalPattern
