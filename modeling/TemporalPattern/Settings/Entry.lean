import TemporalPattern.Fields
import TemporalPattern.Json.Basic
import TemporalPattern.Number.Numeral
import TemporalPattern.Time.Millis
import TemporalPattern.Value

/-!
# Entries of settings files

What a settings file holds, whatever its format, and how one file is laid over another: tables are
merged name by name, and everything else replaces what was there. A name at the top of a file may
be a path to a place further down. Names differing only in case are the same.
-/

namespace TemporalPattern

inductive Entry where
  | null
  /-- A text, or the text of a number, a truth value or a date. -/
  | scalar (text : String)
  | list (items : List Entry)
  | table (fields : List (String × Entry))
  deriving Repr

/-- A step of a path into an entry. -/
inductive PathStep where
  | name (s : String)
  /-- A place in a list, counted back from its end if negative. -/
  | index (i : Int)
  deriving DecidableEq, Repr

namespace Entry

/-- The fields of a table; anything else has none. -/
def fields : Entry → Fields Entry
  | table fields => fields
  | _ => []

/-- The items of a list; anything else has none. -/
def items : Entry → List Entry
  | list items => items
  | _ => []

/-- What a table has under a name. Tables keep their names in small letters. Only capitals of ASCII
are changed, which is enough for the names of settings: the small letter of no other capital is in
one of them. -/
def get? (e : Entry) (name : String) : Option Entry :=
  e.fields.lookup name.toLower

/-- Gives a name of a table a value. What is not a table becomes one. -/
def put (e : Entry) (name : String) (value : Entry) : Entry :=
  table (Fields.assign name.toLower value e.fields)

theorem get?_put (e : Entry) (name key : String) (value : Entry) :
    (e.put name value).get? key =
      if key.toLower = name.toLower then some value else e.get? key :=
  Fields.lookup_assign name.toLower key.toLower value e.fields

mutual

/-- Lays an entry over what a table has under a name. -/
def merge (name : String) : Entry → Entry → Entry
  | table incoming, root =>
    root.put name (mergeFields incoming ((root.get? name).getD (table [])))
  | value, root => root.put name value

def mergeFields : Fields Entry → Entry → Entry
  | [], root => root
  | (name, value) :: rest, root => mergeFields rest (merge name value root)

end

/-- The place in a list of some length that an index stands for. -/
def place (length : Nat) (i : Int) : Nat :=
  if i < 0 then length - i.natAbs else i.natAbs

/-- Lays an entry over what is found at a path. On the way, what is not a table or a list is
replaced by an empty one. -/
def mergeAt : List PathStep → Entry → Entry → Entry
  | [], value, _ => value
  | [.name s], value, root => merge s value root
  | .name s :: path, value, root => root.put s (mergeAt path value ((root.get? s).getD null))
  | .index i :: path, value, root =>
    let n := place root.items.length i
    let items := root.items ++ List.replicate (n + 1 - root.items.length) null
    list (items.set n (mergeAt path value (items[n]?.getD null)))

def isNameChar (c : Char) : Bool :=
  c.isAlphanum || c = '_' || c = '-' || c = ' '

/-- An index of 64 bits with or without a minus. -/
def index? (cs : List Char) : Option (Int × List Char) := do
  let (negative, cs) := match cs with
    | '-' :: cs => (true, cs)
    | cs => (false, cs)
  let (digits, cs) ← Numeral.digits? cs
  let n : Int := Nat.ofDigitChars 10 digits 0
  let i : Int64 ← Millis.ofInt? (if negative then -n else n)
  return (i.toInt, cs)

/-- The steps after the first name of a path. -/
def pathSteps? : Nat → List Char → Option (List PathStep)
  | _, [] => some []
  | 0, _ => none
  | fuel + 1, '.' :: cs => do
    let name := cs.takeWhile isNameChar
    if name.isEmpty then none
    return .name (.ofList name) :: (← pathSteps? fuel (cs.dropWhile isNameChar))
  | fuel + 1, '[' :: cs => do
    let isSpace (c : Char) : Bool := c = ' ' || c = '\t'
    let (i, cs) ← index? (cs.dropWhile isSpace)
    match cs.dropWhile isSpace with
    | ']' :: cs => return .index i :: (← pathSteps? fuel cs)
    | _ => none
  | _, _ => none

/-- The path a name stands for: names joined by points and indices in brackets. Any other name
stands for itself. -/
def pathOf (name : String) : List PathStep :=
  let cs := name.toList
  let first := cs.takeWhile isNameChar
  match first, pathSteps? cs.length (cs.dropWhile isNameChar) with
  | _ :: _, some path => .name (.ofList first) :: path
  | _, _ => [.name name]

/-- The name at the top of a file that a field with some name leads to. -/
def topName (name : String) : String :=
  match pathOf name with
  | .name s :: _ => s.toLower
  | _ => name.toLower

def isEmptyTable : Entry → Bool
  | table [] => true
  | _ => false

/-- The last of the fields that lead to a name, apart from empty tables. -/
def lastUnder? (key : String) (file : Fields Entry) : Option Entry :=
  (file.filter fun field => topName field.1 = key.toLower && !field.2.isEmptyTable).getLast?.map
    Prod.snd

/-- Lays a file over another one. -/
def overlay (file : Fields Entry) (root : Entry) : Entry :=
  file.foldl (fun root (name, value) => mergeAt (pathOf name) value root) root

mutual

/-- The entry of a document, unless a part of it has no value. -/
def ofJson? : Json → Option Entry
  | .null => some null
  | .bool b => some (scalar (toString b))
  | .int n =>
    match Millis.ofInt? n with
    | some t => some (scalar (toString t))
    | none => some (scalar (Layout.plain.write (.ofInt n : Binary .binary64)))
  | .float32 x => some (scalar (Layout.plain.write x))
  | .float64 x => some (scalar (Layout.plain.write x))
  | .text s => some (scalar s)
  | .array items => do return list (← ofJsonEach items)
  | .object fields => do return table (Fields.ofList (← ofJsonFields fields))
  | .unreadable => none

def ofJsonEach : List Json → Option (List Entry)
  | [] => some []
  | j :: js => do
    let e ← ofJson? j
    let es ← ofJsonEach js
    return e :: es

def ofJsonFields : List (String × Json) → Option (List (String × Entry))
  | [] => some []
  | (name, j) :: fields => do
    let e ← ofJson? j
    let es ← ofJsonFields fields
    return (name, e) :: es

end

end Entry
end TemporalPattern
