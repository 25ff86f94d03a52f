import TemporalPattern.Json.Basic
import TemporalPattern.Number.Decimal

/-!
# Writing JSON

`Json.write` gives the compact text of a document. Floating point numbers are written with the
fewest digits that tell them from others of their format, and null stands for those that are not
finite.
-/

namespace TemporalPattern

namespace Layout

/-- Floating point numbers in JSON: with a point, or with an exponent if they are large or small. -/
def json (least greatest : Int) : Layout where
  tie := .even
  positional lead := least ≤ lead ∧ lead ≤ greatest
  integerEnd := ".0"
  nan := "null"
  infinity := "null"
  negativeInfinity := "null"

def json32 : Layout := json (-6) 12

def json64 : Layout := json (-5) 15

end Layout

namespace Json

/-- The text of one character in a string. Only quotes, backslashes and control characters are
escaped. -/
def escape (c : Char) : List Char :=
  match c with
  | '"' => ['\\', '"']
  | '\\' => ['\\', '\\']
  | '\n' => ['\\', 'n']
  | '\r' => ['\\', 'r']
  | '\t' => ['\\', 't']
  | '\x08' => ['\\', 'b']
  | '\x0c' => ['\\', 'f']
  | c =>
    if c.toNat < 32 then
      ['\\', 'u', '0', '0', Nat.digitChar (c.toNat / 16), Nat.digitChar (c.toNat % 16)]
    else [c]

def quote (s : String) : String :=
  "\"" ++ String.ofList (s.toList.flatMap escape) ++ "\""

mutual

/-- The text of a document, without any blanks. -/
def write : Json → String
  | null => "null"
  | bool b => toString b
  | int n => toString n
  | float32 x => Layout.json32.write x
  | float64 x => Layout.json64.write x
  | text s => quote s
  | array items => "[" ++ String.intercalate "," (writeEach items) ++ "]"
  | object fields => "\x7b" ++ String.intercalate "," (writeFields fields) ++ "\x7d"
  | unreadable => "null"

def writeEach : List Json → List String
  | [] => []
  | j :: js => j.write :: writeEach js

def writeFields : List (String × Json) → List String
  | [] => []
  | (name, j) :: fields => (quote name ++ ":" ++ j.write) :: writeFields fields

end

end Json
end TemporalPattern
