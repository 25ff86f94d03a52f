import TemporalPattern.Json.Write
import TemporalPattern.Number.Numeral

/-!
# Reading JSON

`Json.read?` reads what `Json.write` writes, and every other way to write a document. Blanks are the
four of JSON. Brackets may be nested to a depth of 127; what lies deeper is checked for its form
only.
-/

namespace TemporalPattern.Json

def isBlank (c : Char) : Bool :=
  c = ' ' || c = '\n' || c = '\r' || c = '\t'

def dropBlanks (cs : List Char) : List Char :=
  cs.dropWhile isBlank

def hexDigit? (c : Char) : Option Nat :=
  if c.isDigit then some (c.toNat - '0'.toNat)
  else if 'a' ≤ c ∧ c ≤ 'f' then some (c.toNat - 'a'.toNat + 10)
  else if 'A' ≤ c ∧ c ≤ 'F' then some (c.toNat - 'A'.toNat + 10)
  else none

/-- The character a backslash and one more letter stand for. -/
def unescape? : Char → Option Char
  | '"' => some '"'
  | '\\' => some '\\'
  | '/' => some '/'
  | 'b' => some '\x08'
  | 'f' => some '\x0c'
  | 'n' => some '\n'
  | 'r' => some '\r'
  | 't' => some '\t'
  | _ => none

/-- The units of a string up to the closing quote, and the text after it. A unit is the number of a
character, or half of a surrogate pair. -/
def units? : List Char → Option (List Nat × List Char)
  | [] => none
  | '"' :: cs => some ([], cs)
  | '\\' :: 'u' :: a :: b :: c :: d :: cs => do
    let unit := 4096 * (← hexDigit? a) + 256 * (← hexDigit? b) + 16 * (← hexDigit? c) +
      (← hexDigit? d)
    let (units, cs) ← units? cs
    return (unit :: units, cs)
  | '\\' :: c :: cs => do
    let c ← unescape? c
    let (units, cs) ← units? cs
    return (c.toNat :: units, cs)
  | c :: cs => do
    if c.toNat < 32 then none
    let (units, cs) ← units? cs
    return (c.toNat :: units, cs)

def isLead (unit : Nat) : Bool :=
  0xd800 ≤ unit && unit < 0xdc00

def isTrail (unit : Nat) : Bool :=
  0xdc00 ≤ unit && unit < 0xe000

/-- The characters of a string, unless half of a surrogate pair stands alone. -/
def characters? : List Nat → Option (List Char)
  | [] => some []
  | a :: b :: units =>
    if isLead a && isTrail b then do
      let cs ← characters? units
      return .ofNat (0x10000 + 1024 * (a - 0xd800) + (b - 0xdc00)) :: cs
    else if isLead a || isTrail a then none
    else do
      let cs ← characters? (b :: units)
      return .ofNat a :: cs
  | [a] => if isLead a || isTrail a then none else some [.ofNat a]

/-- The string after an opening quote, `none` inside if it has no value. -/
def string? (cs : List Char) : Option (Option String × List Char) := do
  let (units, cs) ← units? cs
  return ((characters? units).map String.ofList, cs)

/-- The text after a word it starts with. -/
def word? (word : String) (cs : List Char) : Option (List Char) :=
  if word.toList.isPrefixOf cs then some (cs.drop word.length) else none

/-- The number that is written as a numeral. -/
def ofNumeral (n : Numeral) : Json :=
  match n.integer? with
  | some k => int k
  | none => (n.toFloat64?.map float64).getD unreadable

/-- A value in brackets, where `room` more levels may be nested. -/
def nested (room : Nat) (j : Json) : Json :=
  if room = 0 then unreadable else j

/-- An object, if all of its names have a value. -/
def ofFields (fields : List (Option String × Json)) : Json :=
  match fields.mapM fun (name?, j) => name?.map fun name => (name, j) with
  | some fields => object fields
  | none => unreadable

mutual

/-- The value at the start of a text. The fuel bounds the number of steps; every second step passes
a character. -/
def value? : Nat → Nat → List Char → Option (Json × List Char)
  | 0, _, _ => none
  | fuel + 1, room, cs =>
    match dropBlanks cs with
    | '[' :: cs =>
      match dropBlanks cs with
      | ']' :: cs => some (nested room (array []), cs)
      | cs => (items? fuel (room - 1) cs).map fun (items, cs) => (nested room (array items), cs)
    | '{' :: cs =>
      match dropBlanks cs with
      | '}' :: cs => some (nested room (object []), cs)
      | cs => (fields? fuel (room - 1) cs).map fun (fields, cs) =>
        (nested room (ofFields fields), cs)
    | '"' :: cs => (string? cs).map fun (s?, cs) => ((s?.map text).getD unreadable, cs)
    | 'n' :: cs => (word? "ull" cs).map fun cs => (null, cs)
    | 't' :: cs => (word? "rue" cs).map fun cs => (bool true, cs)
    | 'f' :: cs => (word? "alse" cs).map fun cs => (bool false, cs)
    | cs => (Numeral.read? cs).map fun (n, cs) => (ofNumeral n, cs)

/-- The items of an array that is not empty, up to its end. -/
def items? : Nat → Nat → List Char → Option (List Json × List Char)
  | 0, _, _ => none
  | fuel + 1, room, cs => do
    let (j, cs) ← value? fuel room cs
    match dropBlanks cs with
    | ',' :: cs =>
      let (js, cs) ← items? fuel room cs
      return (j :: js, cs)
    | ']' :: cs => return ([j], cs)
    | _ => none

/-- The fields of an object that is not empty, up to its end. -/
def fields? : Nat → Nat → List Char → Option (List (Option String × Json) × List Char)
  | 0, _, _ => none
  | fuel + 1, room, cs =>
    match dropBlanks cs with
    | '"' :: cs => do
      let (name?, cs) ← string? cs
      match dropBlanks cs with
      | ':' :: cs =>
        let (j, cs) ← value? fuel room cs
        match dropBlanks cs with
        | ',' :: cs =>
          let (fields, cs) ← fields? fuel room cs
          return ((name?, j) :: fields, cs)
        | '}' :: cs => return ([(name?, j)], cs)
        | _ => none
      | _ => none
    | _ => none

end

/-- How deeply brackets may be nested. -/
def maxDepth : Nat := 127

/-- The document that makes up a whole text. -/
def read? (s : String) : Option Json :=
  let cs := s.toList
  match value? (2 * cs.length + 2) maxDepth cs with
  | some (j, rest) => if (dropBlanks rest).isEmpty then some j else none
  | none => none

end TemporalPattern.Json
