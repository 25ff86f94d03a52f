import TemporalPattern.Json.Read
import TemporalPattern.Value

/-!
# Text layers

Documents are handed over as texts. A text layer writes and reads them; a faithful one gives every
document back except for floating point numbers, which are read as numbers of 64 bits whatever they
were. What becomes of a value on the way is said in terms of the layer.
-/

namespace TemporalPattern

namespace Json

mutual

/-- How deeply brackets are nested. -/
def depth : Json → Nat
  | array items => depthEach items + 1
  | object fields => depthFields fields + 1
  | _ => 0

def depthEach : List Json → Nat
  | [] => 0
  | j :: js => max j.depth (depthEach js)

def depthFields : List (String × Json) → Nat
  | [] => 0
  | (_, j) :: fields => max j.depth (depthFields fields)

end

mutual

/-- Integers are of 64 bits, and there is nothing without a value. -/
def Readable : Json → Prop
  | int n => ∃ t : Int64, t.toInt = n
  | array items => ReadableEach items
  | object fields => ReadableFields fields
  | unreadable => False
  | _ => True

def ReadableEach : List Json → Prop
  | [] => True
  | j :: js => j.Readable ∧ ReadableEach js

def ReadableFields : List (String × Json) → Prop
  | [] => True
  | (_, j) :: fields => j.Readable ∧ ReadableFields fields

end

mutual

/-- Replaces the floating point numbers of a document. -/
def mapFloats (f : Json → Json) : Json → Json
  | float32 x => f (float32 x)
  | float64 x => f (float64 x)
  | array items => array (mapFloatsEach f items)
  | object fields => object (mapFloatsFields f fields)
  | j => j

def mapFloatsEach (f : Json → Json) : List Json → List Json
  | [] => []
  | j :: js => j.mapFloats f :: mapFloatsEach f js

def mapFloatsFields (f : Json → Json) : List (String × Json) → List (String × Json)
  | [] => []
  | (name, j) :: fields => (name, j.mapFloats f) :: mapFloatsFields f fields

end

theorem mapFloatsEach_eq (f : Json → Json) (js : List Json) :
    mapFloatsEach f js = js.map (mapFloats f) := by
  induction js with
  | nil => rfl
  | cons j js ih => simp [mapFloatsEach, ih]

theorem mapFloatsFields_eq (f : Json → Json) (fields : List (String × Json)) :
    mapFloatsFields f fields = fields.map fun field => (field.1, field.2.mapFloats f) := by
  induction fields with
  | nil => rfl
  | cons field fields ih => simp [mapFloatsFields, ih]

end Json

/-- A way to write documents as texts and to read them. -/
structure TextLayer where
  write : Json → String
  read? : String → Option Json
  /-- How deeply brackets may be nested. -/
  maxDepth : Nat

namespace TextLayer

/-- The text layer of `Json.write` and `Json.read?`. -/
def json : TextLayer :=
  ⟨Json.write, Json.read?, Json.maxDepth⟩

variable (T : TextLayer)

/-- A document with its floating point numbers as each of them is read from a text of its own. -/
def reread (j : Json) : Json :=
  j.mapFloats fun x => (T.read? (T.write x)).getD .unreadable

/-- What a text layer does. Texts, truth values and 64-bit integers are given back. -/
structure Faithful : Prop where
  read?_write (j : Json) (hj : j.Readable) (hdepth : j.depth ≤ T.maxDepth) :
    T.read? (T.write j) = some (T.reread j)
  /-- A finite number is read as one of 64 bits, unless that is out of range. -/
  reread_finite (x : Binary .binary32) (h : x.isFinite) :
    T.reread (.float32 x) = .unreadable ∨ ∃ y, T.reread (.float32 x) = .float64 y
  /-- Null is written for a number that is not finite. -/
  reread_not_finite (x : Binary .binary32) (h : ¬ x.isFinite) : T.reread (.float32 x) = .null

/-- Whether a number of 32 bits is read from its text as a number of 64 bits that is rounded to
it. -/
def IsLossless (x : Binary .binary32) : Prop :=
  ∃ y : Binary .binary64, T.read? (T.write (.float32 x)) = some (.float64 y) ∧ y.convert = x

/-- Whether a value that is handed over as a text of its own arrives unchanged. An integer is given
the type of 32 bits if it fits, and every other number a floating point type of 32 bits. -/
def Keeps : Value → Prop
  | .text _ | .bool _ | .int32 _ => True
  | .int64 n => ¬ (Int32.minValue.toInt ≤ n.toInt ∧ n.toInt ≤ Int32.maxValue.toInt)
  | .float32 x => T.IsLossless x
  | .float64 _ => False

end TextLayer

/-- Whether the type of a value can be told from a text that gives its number exactly. -/
def Value.IsTold : Value → Prop
  | text _ | bool _ | int32 _ => True
  | int64 n => ¬ (Int32.minValue.toInt ≤ n.toInt ∧ n.toInt ≤ Int32.maxValue.toInt)
  | float32 x => x.isFinite
  | float64 _ => False

end TemporalPattern
