import TemporalPattern.Json.Encode

/-!
# Terms from JSON

Reading terms back from their documents. Fields may come in any order, and fields of other names
are passed over; a field without contents may be left out. A record may also be an array of its
fields. A value gets the first type that takes it, so a number that is not an integer of 64 bits is
read as a 32-bit floating point number.
-/

namespace TemporalPattern

namespace Json

def text? : Json → Option String
  | text s => some s
  | _ => none

def int64? : Json → Option Int64
  | int n => Millis.ofInt? n
  | _ => none

def array? : Json → Option (List Json)
  | array items => some items
  | _ => none

/-- The contents of an optional field that is missing, null, or read by `read`. -/
def optional {α : Type} (read : Json → Option α) : Option Json → Option (Option α)
  | none | some null => some none
  | some j => (read j).map some

/-- The alternative without contents that a document names. -/
def choice? {α : Type} (all : List α) (name : α → String) (j : Json) : Option α := do
  let tag ← match j with
    | text tag => some tag
    | object [(tag, null)] => some tag
    | _ => none
  all.find? (name · = tag)

end Json

def TimeField.ofJson? : Json → Option TimeField :=
  Json.choice? all jsonName

def Axis.ofJson? : Json → Option Axis :=
  Json.choice? all jsonName

def Comparator.ofJson? : Json → Option Comparator :=
  Json.choice? all jsonName

def ElementKind.ofJson? : Json → Option ElementKind :=
  Json.choice? all jsonName

namespace Value

/-- An integer as a value, of the first type that it fits. -/
def ofInt (k : Int) : Value :=
  if Int32.minValue.toInt ≤ k ∧ k ≤ Int32.maxValue.toInt then int32 (.ofInt k)
  else match Millis.ofInt? k with
    | some n => int64 n
    | none => float32 (.ofInt k)

def ofJson? : Json → Option Value
  | .text s => some (text s)
  | .bool b => some (bool b)
  | .int k => some (ofInt k)
  | .float32 x => some (float32 x)
  | .float64 x => some (float32 x.convert)
  | _ => none

end Value

def Millis.ofJson? (j : Json) : Option Millis := do
  match ← j.record? ["millis"] with
  | [some n] => n.int64?
  | _ => none

namespace TimePoint

def selectorOfJson? (j : Json) : Option TimePoint := do
  match ← j.record? ["variable", "field"] with
  | [some name, some field] => return .selector (← name.text?) (← TimeField.ofJson? field)
  | _ => none

mutual

def ofJson? : Json → Option TimePoint
  | .object [("Literal", time)] => (Millis.ofJson? time).map literal
  | .object [("Selector", j)] => selectorOfJson? j
  | .object [("Constant", length)] => (Millis.ofJson? length).map constant
  | .object [("Duration", .object fields)] => do
    match ← Json.select? ["from", "to"] (ofJsonFields fields) with
    | [some start, some stop] => return .duration (← start) (← stop)
    | _ => none
  | .object [("Duration", .array [start, stop])] => do
    return .duration (← ofJson? start) (← ofJson? stop)
  | .object [("Plus", .object fields)] => do
    let length? := fields.lookup "constant"
    match ← Json.select? ["point", "constant"] (ofJsonFields fields), length? with
    | [some point, some _], some length => return .plus (← point) (← Millis.ofJson? length)
    | _, _ => none
  | .object [("Plus", .array [point, length])] => do
    return .plus (← ofJson? point) (← Millis.ofJson? length)
  | .object [("Max", .array args)] => do return .aggregate .max (← ofJsonEach args)
  | .object [("Min", .array args)] => do return .aggregate .min (← ofJsonEach args)
  | _ => none

def ofJsonEach : List Json → Option (List TimePoint)
  | [] => some []
  | j :: js => do
    let p ← ofJson? j
    let ps ← ofJsonEach js
    return p :: ps

/-- Every field as a term, if it is one. -/
def ofJsonFields : List (String × Json) → List (String × Option TimePoint)
  | [] => []
  | (name, j) :: fields => (name, ofJson? j) :: ofJsonFields fields

end

end TimePoint

namespace Operand

def propertyOfJson? (j : Json) : Option Operand := do
  match ← j.record? ["variable", "key"] with
  | [some name, some key] => return .property (← name.text?) (← key.text?)
  | _ => none

def ofJson? : Json → Option Operand
  | .object [("Literal", v)] => (Value.ofJson? v).map value
  | .object [("Element", name)] => name.text?.map element
  | .object [("Property", j)] => propertyOfJson? j
  | .object [("Time", point)] => (TimePoint.ofJson? point).map time
  | _ => none

end Operand

def Comparison.ofJson? (j : Json) : Option Comparison := do
  match ← j.record? ["lhs", "op", "rhs"] with
  | [some lhs, some op, some rhs] =>
    return ⟨← Operand.ofJson? lhs, ← Comparator.ofJson? op, ← Operand.ofJson? rhs⟩
  | _ => none

def Predicate.ofJson? : Json → Option Predicate
  | .object [("Comparison", c)] => (Comparison.ofJson? c).map .atom
  | .object [("And", .array [p, q])] => do return .and (← ofJson? p) (← ofJson? q)
  | .object [("Or", .array [p, q])] => do return .or (← ofJson? p) (← ofJson? q)
  | .object [("Not", p)] => do return .not (← ofJson? p)
  | .object [("Xor", .array [p, q])] => do return .xor (← ofJson? p) (← ofJson? q)
  | _ => none

namespace NormalForm

def literalOfJson? : Json → Option (Literal Comparison)
  | .object [("Positive", c)] => (Comparison.ofJson? c).map .positive
  | .object [("Negated", c)] => (Comparison.ofJson? c).map .negative
  | _ => none

def clauseOfJson? (j : Json) : Option (Clause Comparison) := do
  return ⟨← (← j.array?).mapM literalOfJson?⟩

def ofJson? (j : Json) : Option NormalForm := do
  match ← j.record? ["clauses"] with
  | [some clauses] => return ⟨← (← clauses.array?).mapM clauseOfJson?⟩
  | _ => none

end NormalForm

namespace TimeTerm

def selectorOfJson? (j : Json) : Option TimeTerm := do
  match ← j.record? ["variable", "field"] with
  | [name?, some field] =>
    return .selector (← Json.optional Json.text? name?) (← TimeField.ofJson? field)
  | _ => none

mutual

def ofJson? : Json → Option TimeTerm
  | .object [("Literal", s)] => s.text?.map literal
  | .object [("Selector", j)] => selectorOfJson? j
  | .object [("Max", .array args)] => do return .aggregate .max (← ofJsonEach args)
  | .object [("Min", .array args)] => do return .aggregate .min (← ofJsonEach args)
  | _ => none

def ofJsonEach : List Json → Option (List TimeTerm)
  | [] => some []
  | j :: js => do
    let t ← ofJson? j
    let ts ← ofJsonEach js
    return t :: ts

end

end TimeTerm

namespace IntervalTerm

def selectorOfJson? (j : Json) : Option IntervalTerm := do
  match ← j.record? ["variable", "dimension"] with
  | [name?, some axis] =>
    return .selector (← Json.optional Json.text? name?) (← Axis.ofJson? axis)
  | _ => none

def literalOfJson? (j : Json) : Option IntervalTerm := do
  match ← j.record? ["from", "to"] with
  | [some start, some stop] =>
    return .literal (← TimeTerm.ofJson? start) (← TimeTerm.ofJson? stop)
  | _ => none

def ofJson? : Json → Option IntervalTerm
  | .object [("Selector", j)] => selectorOfJson? j
  | .object [("Literal", j)] => literalOfJson? j
  | .object [("Merge", .array [i, j])] => do return .merge (← ofJson? i) (← ofJson? j)
  | .object [("Join", .array [i, j])] => do return .join (← ofJson? i) (← ofJson? j)
  | _ => none

end IntervalTerm

namespace LengthTerm

def unitOfJson? (j : Json) : Option LengthTerm := do
  match ← j.record? ["unit", "amount"] with
  | [some name, some amount] => return .unit (← name.text?) (← amount.int64?)
  | _ => none

def componentsOfJson? (j : Json) : Option LengthTerm := do
  match ← j.record? ["days", "hours", "minutes", "seconds", "millis"] with
  | [some days, some hours, some minutes, some seconds, some millis] =>
    return .components ⟨← days.int64?, ← hours.int64?, ← minutes.int64?, ← seconds.int64?,
      ← millis.int64?⟩
  | _ => none

def ofJson? : Json → Option LengthTerm
  | .object [("Unit", j)] => unitOfJson? j
  | .object [("Components", j)] => componentsOfJson? j
  | _ => none

end LengthTerm

namespace ArgumentTerm

def ofJson? : Json → Option ArgumentTerm
  | .object [("Interval", j)] => (IntervalTerm.ofJson? j).map interval
  | .object [("Timestamp", j)] => (TimeTerm.ofJson? j).map timestamp
  | .object [("Constant", j)] => (LengthTerm.ofJson? j).map length
  | _ => none

end ArgumentTerm

namespace OperandTerm

def propertyOfJson? (j : Json) : Option OperandTerm := do
  match ← j.record? ["variable", "key"] with
  | [some name, some key] => return .property (← name.text?) (← key.text?)
  | _ => none

def ofJson? : Json → Option OperandTerm
  | .object [("Literal", v)] => (Value.ofJson? v).map value
  | .object [("Element", name)] => name.text?.map element
  | .object [("Property", j)] => propertyOfJson? j
  | .object [("Timestamp", t)] => (TimeTerm.ofJson? t).map timestamp
  | _ => none

end OperandTerm

namespace Filter

def comparisonOfJson? (j : Json) : Option Filter := do
  match ← j.record? ["lhs", "op", "rhs"] with
  | [some lhs, some op, some rhs] =>
    return .comparison (← OperandTerm.ofJson? lhs) (← op.text?) (← OperandTerm.ofJson? rhs)
  | _ => none

def intervalCallOfJson? (j : Json) : Option Filter := do
  match ← j.record? ["caller", "function", "args"] with
  | [some caller, some function, some args] =>
    return .intervalCall (← IntervalTerm.ofJson? caller) (← function.text?)
      (← (← args.array?).mapM ArgumentTerm.ofJson?)
  | _ => none

def timestampCallOfJson? (j : Json) : Option Filter := do
  match ← j.record? ["caller", "function", "args"] with
  | [some caller, some function, some args] =>
    return .timestampCall (← TimeTerm.ofJson? caller) (← function.text?)
      (← (← args.array?).mapM ArgumentTerm.ofJson?)
  | _ => none

def asOfOfJson? (j : Json) : Option Filter := do
  match ← j.record? ["variable", "at"] with
  | [name?, some time] =>
    return .asOf (← Json.optional Json.text? name?) (← TimeTerm.ofJson? time)
  | _ => none

def ofJson? : Json → Option Filter
  | .object [("And", .array [f, g])] => do return .and (← ofJson? f) (← ofJson? g)
  | .object [("Or", .array [f, g])] => do return .or (← ofJson? f) (← ofJson? g)
  | .object [("Xor", .array [f, g])] => do return .xor (← ofJson? f) (← ofJson? g)
  | .object [("Not", f)] => do return .not (← ofJson? f)
  | .object [("Comparison", j)] => comparisonOfJson? j
  | .object [("IntervalCall", j)] => intervalCallOfJson? j
  | .object [("TimestampCall", j)] => timestampCallOfJson? j
  | .object [("AsOf", j)] => asOfOfJson? j
  | _ => none

end Filter

namespace Element

/-- Properties with their last values, each in its first place. -/
def propertiesOfJson? : Json → Option (Fields Value)
  | .object fields => do
    let properties ← fields.mapM fun (key, j) => (Value.ofJson? j).map fun v => (key, v)
    return Fields.ofList properties
  | _ => none

def ofJson? (j : Json) : Option Element := do
  match ← j.record? ["variable", "kind", "label", "properties"] with
  | [some name, some kind, label?, some properties] =>
    return ⟨← name.text?, ← ElementKind.ofJson? kind, ← Json.optional Json.text? label?,
      ← propertiesOfJson? properties⟩
  | _ => none

end Element

namespace Settings

def logLevelOfJson? (j : Json) : Option String := do
  match ← j.record? ["log_level"] with
  | [some level] => level.text?
  | _ => none

/-- Settings, with defaults for what is left out at the top level. -/
def ofJson? (j : Json) : Option Settings := do
  let d : Settings := {}
  let names := ["default_graph_label", "default_vertex_label", "default_edge_label", "logging"]
  match ← j.record? names with
  | [graph?, vertex?, edge?, logging?] =>
    return ⟨(← graph?.mapM Json.text?).getD d.graphLabel,
      (← vertex?.mapM Json.text?).getD d.vertexLabel,
      (← edge?.mapM Json.text?).getD d.edgeLabel,
      (← logging?.mapM logLevelOfJson?).getD d.logLevel⟩
  | _ => none

end Settings
end TemporalPattern
