import TemporalPattern.Number.Binary

/-!
# JSON documents

What a JSON text says: its numbers are integers or floating point numbers, and all fields of an
object, repeated ones too, stand in their order.
-/

namespace TemporalPattern

inductive Json where
  | null
  | bool (b : Bool)
  | int (n : Int)
  /-- A number that is written with as many digits as 32 bits need. No text is read as one. -/
  | float32 (x : Binary .binary32)
  | float64 (x : Binary .binary64)
  | text (s : String)
  | array (items : List Json)
  | object (fields : List (String × Json))
  /-- Text that is well formed but has no value: half of a surrogate pair, a name that holds one, a
  number that is out of range, or brackets nested too deeply. -/
  | unreadable
  deriving Repr

namespace Json

/-- The values of the given names, if none of these occurs twice. Other names are passed over. -/
def select? {α : Type} (names : List String) (fields : List (String × α)) :
    Option (List (Option α)) :=
  if names.all fun name => fields.countP (·.1 = name) ≤ 1 then
    some (names.map (fields.lookup ·))
  else none

/-- The values of a record with the given field names, written as an object or, in this order, as
an array. -/
def record? (names : List String) : Json → Option (List (Option Json))
  | object fields => select? names fields
  | array items =>
    if items.length ≤ names.length then
      some (items.map some ++ List.replicate (names.length - items.length) none)
    else none
  | _ => none

end Json
end TemporalPattern
