import TemporalPattern.Settings.Toml.Scalar
import TemporalPattern.Settings.Toml.Table

/-!
# TOML documents

A reader for TOML 1.0. Numbers, truth values and dates become texts.
-/

namespace TemporalPattern.Toml

/-- How deeply arrays and inline tables may be nested. -/
def maxDepth : Nat := 79

mutual

/-- The value at the start of a text, where `room` more levels may be nested. -/
def value? : Nat → Nat → List Char → Option (Entry × List Char)
  | 0, _, _ => none
  | fuel + 1, room, cs =>
    match cs with
    | '"' :: _ | '\'' :: _ =>
      (string? cs.length cs).map fun (text, cs) => (.scalar (.ofList text), cs)
    | '[' :: cs =>
      if room = 0 then none
      else (items? fuel (room - 1) cs).map fun (items, cs) => (.list items, cs)
    | '{' :: cs =>
      if room = 0 then none
      else match dropSpaces cs with
        | '}' :: cs => some (.table [], cs)
        | cs => (pairs? fuel (room - 1) [] cs).map fun (fields, cs) =>
          (.table (fieldEntries fields), cs)
    | 't' :: 'r' :: 'u' :: 'e' :: cs => some (.scalar "true", cs)
    | 'f' :: 'a' :: 'l' :: 's' :: 'e' :: cs => some (.scalar "false", cs)
    | cs => ((dateTime? cs).orElse fun _ => (float? cs).orElse fun _ => integer? cs).map
      fun (text, cs) => (.scalar text, cs)

/-- The items of an array up to its end. A comma may follow the last one. -/
def items? : Nat → Nat → List Char → Option (List Entry × List Char)
  | 0, _, _ => none
  | fuel + 1, room, cs =>
    match dropLines cs.length cs with
    | ']' :: cs => some ([], cs)
    | cs => do
      let (e, cs) ← value? fuel room cs
      match dropLines cs.length cs with
      | ',' :: cs =>
        let (es, cs) ← items? fuel room cs
        return (e :: es, cs)
      | ']' :: cs => return ([e], cs)
      | _ => none

/-- The pairs of an inline table up to its end, added to those before. -/
def pairs? : Nat → Nat → Table → List Char → Option (Table × List Char)
  | 0, _, _, _ => none
  | fuel + 1, room, fields, cs => do
    let ((path, key), cs) ← key? maxNames cs
    let cs ← mark? '=' cs
    let (e, cs) ← value? fuel room (dropSpaces cs)
    let fields ← add true key e path fields
    match dropSpaces cs with
    | ',' :: cs => pairs? fuel room fields cs
    | '}' :: cs => return (fields, cs)
    | _ => none

end

/-- Reads the lines of a document into the tables before. `current` is the path of the open
table. -/
def lines : Nat → List String → Table → List Char → Option Table
  | 0, _, _, _ => none
  | fuel + 1, current, fields, cs =>
    match dropSpaces cs with
    | [] => some fields
    | '[' :: '[' :: cs => do
      let ((path, name), cs) ← key? maxNames cs
      let cs ← lineEnd? (← mark? ']' (← mark? ']' cs))
      let fields ← within (declareNext name) path fields
      lines fuel (path ++ [name]) fields cs
    | '[' :: cs => do
      let ((path, name), cs) ← key? maxNames cs
      let cs ← lineEnd? (← mark? ']' cs)
      let fields ← within (declare name) path fields
      lines fuel (path ++ [name]) fields cs
    | cs =>
      match lineEnd? cs with
      | some cs => lines fuel current fields cs
      | none => do
        let ((path, key), cs) ← key? maxNames cs
        let cs ← mark? '=' cs
        let (e, cs) ← value? (2 * cs.length + 2) maxDepth (dropSpaces cs)
        let cs ← lineEnd? cs
        let fields ← within (add true key e path) current fields
        lines fuel current fields cs

/-- The table of a whole document. A mark of the byte order at its start is dropped. -/
def read? (s : String) : Option (Fields Entry) :=
  let cs := match s.toList with
    | '\ufeff' :: cs => cs
    | cs => cs
  (lines (cs.length + 1) [] [] cs).map fieldEntries

end TemporalPattern.Toml
