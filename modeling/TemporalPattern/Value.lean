import TemporalPattern.Number.Decimal

/-!
# Values

The values of properties and of literals in filters. `Value.order?` orders values of one type;
`Value.compare?` also orders numbers of different types, both as 64-bit integers if they are
integers and as 64-bit floating point numbers otherwise.
-/

namespace TemporalPattern

inductive ValueType where
  | text
  | bool
  | int32
  | int64
  | float32
  | float64
  deriving DecidableEq, Repr

inductive Value where
  | text (s : String)
  | bool (b : Bool)
  | int32 (n : Int32)
  | int64 (n : Int64)
  | float32 (x : Binary .binary32)
  | float64 (x : Binary .binary64)
  deriving DecidableEq, Repr

namespace ValueType

def name : ValueType → String
  | text => "Str"
  | bool => "Bool"
  | int32 => "I32"
  | int64 => "I64"
  | float32 => "F32"
  | float64 => "F64"

def isNumeric : ValueType → Bool
  | int32 | int64 | float32 | float64 => true
  | text | bool => false

/-- Whether values of the two types are comparable at all. -/
def isComparableWith (s t : ValueType) : Bool :=
  s = t || (s.isNumeric && t.isNumeric)

end ValueType

namespace Value

def type : Value → ValueType
  | text _ => .text
  | bool _ => .bool
  | int32 _ => .int32
  | int64 _ => .int64
  | float32 _ => .float32
  | float64 _ => .float64

def render : Value → String
  | text s => s
  | bool b => toString b
  | int32 n => toString n
  | int64 n => toString n
  | float32 x => Layout.plain.write x
  | float64 x => Layout.plain.write x

/-- A number as a 64-bit floating point number, to the nearest. -/
def toFloat64? : Value → Option (Binary .binary64)
  | int32 n => some (.ofInt n.toInt)
  | int64 n => some (.ofInt n.toInt)
  | float32 x => some x.convert
  | float64 x => some x
  | text _ | bool _ => none

/-- The order of two values of one type. Texts are ordered by their characters, false comes before
true. -/
def order? : Value → Value → Option Ordering
  | text s, text t => some (compare s t)
  | bool a, bool b => some (compare a b)
  | int32 m, int32 n => some (compare m n)
  | int64 m, int64 n => some (compare m n)
  | float32 x, float32 y => x.compare? y
  | float64 x, float64 y => x.compare? y
  | _, _ => none

/-- The order of two values, also of two numbers of different types. -/
def compare? (v w : Value) : Option Ordering :=
  match v, w with
  | int32 m, int64 n => some (compare m.toInt n.toInt)
  | int64 m, int32 n => some (compare m.toInt n.toInt)
  | _, _ =>
    if v.type = w.type then v.order? w
    else do (← v.toFloat64?).compare? (← w.toFloat64?)

/-- Equality of values of one type, under which a NaN differs from itself and the zeros are
equal. -/
def same (v w : Value) : Bool :=
  v.order? w = some .eq

end Value
end TemporalPattern
