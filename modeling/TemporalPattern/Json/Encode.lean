import TemporalPattern.Json.Basic
import TemporalPattern.Query

/-!
# Terms as JSON

The documents that stand for terms. An alternative of a type is an object with one field, named for
the alternative; one without contents is just its name. Values carry no type: the documents of
integers of both widths are alike, and so are the texts of floating point numbers.
-/

namespace TemporalPattern

namespace Json

/-- The alternative of a type with a given name and contents. -/
def variant (name : String) (contents : Json) : Json :=
  object [(name, contents)]

def ofName? : Option String → Json
  | some name => text name
  | none => null

end Json

namespace TimeField

def all : List TimeField :=
  [⟨.valid, .start⟩, ⟨.valid, .stop⟩, ⟨.transaction, .start⟩, ⟨.transaction, .stop⟩]

def jsonName : TimeField → String
  | ⟨.valid, .start⟩ => "ValFrom"
  | ⟨.valid, .stop⟩ => "ValTo"
  | ⟨.transaction, .start⟩ => "TxFrom"
  | ⟨.transaction, .stop⟩ => "TxTo"

end TimeField

namespace Axis

def all : List Axis :=
  [valid, transaction]

def jsonName : Axis → String
  | valid => "Valid"
  | transaction => "Transaction"

end Axis

namespace Comparator

def all : List Comparator :=
  [eq, neq, gt, lt, gte, lte]

def jsonName : Comparator → String
  | eq => "Eq"
  | neq => "Neq"
  | gt => "Gt"
  | lt => "Lt"
  | gte => "Gte"
  | lte => "Lte"

end Comparator

namespace ElementKind

def all : List ElementKind :=
  [graph, vertex, edge]

def jsonName : ElementKind → String
  | graph => "Graph"
  | vertex => "Vertex"
  | edge => "Edge"

end ElementKind

namespace Aggregate

def jsonName : Aggregate → String
  | max => "Max"
  | min => "Min"

end Aggregate

namespace Value

def toJson : Value → Json
  | text s => .text s
  | bool b => .bool b
  | int32 n => .int n.toInt
  | int64 n => .int n.toInt
  | float32 x => .float32 x
  | float64 x => .float64 x

end Value

def Millis.toJson (t : Millis) : Json :=
  .object [("millis", .int t.toInt)]

namespace TimePoint

mutual

def toJson : TimePoint → Json
  | literal time => .variant "Literal" time.toJson
  | selector name field =>
    .variant "Selector" (.object [("variable", .text name), ("field", .text field.jsonName)])
  | constant length => .variant "Constant" length.toJson
  | duration start stop =>
    .variant "Duration" (.object [("from", start.toJson), ("to", stop.toJson)])
  | plus point length =>
    .variant "Plus" (.object [("point", point.toJson), ("constant", length.toJson)])
  | aggregate choice args => .variant choice.jsonName (.array (toJsonEach args))

def toJsonEach : List TimePoint → List Json
  | [] => []
  | p :: ps => p.toJson :: toJsonEach ps

end

theorem toJsonEach_eq (ps : List TimePoint) : toJsonEach ps = ps.map toJson := by
  induction ps with
  | nil => rfl
  | cons p ps ih => simp [toJsonEach, ih]

end TimePoint

namespace Operand

def toJson : Operand → Json
  | value v => .variant "Literal" v.toJson
  | element name => .variant "Element" (.text name)
  | property name key =>
    .variant "Property" (.object [("variable", .text name), ("key", .text key)])
  | time point => .variant "Time" point.toJson

end Operand

def Comparison.toJson (c : Comparison) : Json :=
  .object [("lhs", c.lhs.toJson), ("op", .text c.op.jsonName), ("rhs", c.rhs.toJson)]

def Predicate.toJson : Predicate → Json
  | .atom c => .variant "Comparison" c.toJson
  | .and p q => .variant "And" (.array [toJson p, toJson q])
  | .or p q => .variant "Or" (.array [toJson p, toJson q])
  | .not p => .variant "Not" (toJson p)
  | .xor p q => .variant "Xor" (.array [toJson p, toJson q])

namespace NormalForm

def literalToJson : Literal Comparison → Json
  | .positive c => .variant "Positive" c.toJson
  | .negative c => .variant "Negated" c.toJson

def toJson (n : NormalForm) : Json :=
  .object [("clauses", .array (n.clauses.map fun c => .array (c.literals.map literalToJson)))]

end NormalForm

namespace Argument

def toJson : Argument → Json
  | interval i => .variant "Interval" (.object [
      ("value", .object [("from", i.value.start.toJson), ("to", i.value.stop.toJson)]),
      ("constraints", .array (i.constraints.map Predicate.toJson))])
  | timestamp p => .variant "Timestamp" p.toJson
  | constant length => .variant "Constant" length.toJson

end Argument

namespace TimeTerm

mutual

def toJson : TimeTerm → Json
  | literal text => .variant "Literal" (.text text)
  | selector name? field =>
    .variant "Selector" (.object [("variable", .ofName? name?), ("field", .text field.jsonName)])
  | aggregate choice args => .variant choice.jsonName (.array (toJsonEach args))

def toJsonEach : List TimeTerm → List Json
  | [] => []
  | t :: ts => t.toJson :: toJsonEach ts

end

end TimeTerm

namespace IntervalTerm

def toJson : IntervalTerm → Json
  | selector name? axis =>
    .variant "Selector" (.object [("variable", .ofName? name?), ("dimension", .text axis.jsonName)])
  | literal start stop =>
    .variant "Literal" (.object [("from", start.toJson), ("to", stop.toJson)])
  | merge i j => .variant "Merge" (.array [i.toJson, j.toJson])
  | join i j => .variant "Join" (.array [i.toJson, j.toJson])

end IntervalTerm

namespace LengthTerm

def toJson : LengthTerm → Json
  | unit name amount =>
    .variant "Unit" (.object [("unit", .text name), ("amount", .int amount.toInt)])
  | components c => .variant "Components" (.object [("days", .int c.days.toInt),
      ("hours", .int c.hours.toInt), ("minutes", .int c.minutes.toInt),
      ("seconds", .int c.seconds.toInt), ("millis", .int c.millis.toInt)])

end LengthTerm

namespace ArgumentTerm

def toJson : ArgumentTerm → Json
  | interval i => .variant "Interval" i.toJson
  | timestamp t => .variant "Timestamp" t.toJson
  | length l => .variant "Constant" l.toJson

end ArgumentTerm

namespace OperandTerm

def toJson : OperandTerm → Json
  | value v => .variant "Literal" v.toJson
  | element name => .variant "Element" (.text name)
  | property name key =>
    .variant "Property" (.object [("variable", .text name), ("key", .text key)])
  | timestamp t => .variant "Timestamp" t.toJson

end OperandTerm

namespace Filter

def toJson : Filter → Json
  | and f g => .variant "And" (.array [f.toJson, g.toJson])
  | or f g => .variant "Or" (.array [f.toJson, g.toJson])
  | xor f g => .variant "Xor" (.array [f.toJson, g.toJson])
  | not f => .variant "Not" f.toJson
  | comparison lhs op rhs =>
    .variant "Comparison" (.object [("lhs", lhs.toJson), ("op", .text op), ("rhs", rhs.toJson)])
  | intervalCall caller function args =>
    .variant "IntervalCall" (.object [("caller", caller.toJson), ("function", .text function),
      ("args", .array (args.map ArgumentTerm.toJson))])
  | timestampCall caller function args =>
    .variant "TimestampCall" (.object [("caller", caller.toJson), ("function", .text function),
      ("args", .array (args.map ArgumentTerm.toJson))])
  | asOf name? time =>
    .variant "AsOf" (.object [("variable", .ofName? name?), ("at", time.toJson)])

end Filter

def Element.toJson (e : Element) : Json :=
  .object [("variable", .text e.name), ("kind", .text e.kind.jsonName),
    ("label", .ofName? e.label?),
    ("properties", .object (e.properties.map fun (key, v) => (key, v.toJson)))]

def Settings.toJson (s : Settings) : Json :=
  .object [("default_graph_label", .text s.graphLabel),
    ("default_vertex_label", .text s.vertexLabel), ("default_edge_label", .text s.edgeLabel),
    ("logging", .object [("log_level", .text s.logLevel)])]

end TemporalPattern
