import TemporalPattern.Json.Read

/-!
# Blanks, strings and keys of TOML

Readers that take what they look for from the start of a text and return it with the rest.
-/

namespace TemporalPattern.Toml

/-! ## Blanks and comments -/

def isSpace (c : Char) : Bool :=
  c = ' ' || c = '\t'

def dropSpaces (cs : List Char) : List Char :=
  cs.dropWhile isSpace

/-- Characters other than control characters, but with the tab. -/
def isPrintable (c : Char) : Bool :=
  c = '\t' || (32 ≤ c.toNat && c ≠ '\x7f')

def dropComment : List Char → List Char
  | '#' :: cs => cs.dropWhile isPrintable
  | cs => cs

def newline? : List Char → Option (List Char)
  | '\n' :: cs | '\r' :: '\n' :: cs => some cs
  | _ => none

/-- The text after the rest of a line, which may hold a comment. -/
def lineEnd? (cs : List Char) : Option (List Char) :=
  match dropComment (dropSpaces cs) with
  | [] => some []
  | cs => newline? cs

/-- Drops blanks, comments and ends of lines. -/
def dropLines : Nat → List Char → List Char
  | 0, cs => cs
  | fuel + 1, cs =>
    let cs := dropComment (dropSpaces cs)
    match newline? cs with
    | some cs => dropLines fuel cs
    | none => cs

/-! ## Strings and keys -/

def hexNumber? (cs : List Char) : Option Nat :=
  cs.foldlM (fun n c => do return 16 * n + (← Json.hexDigit? c)) 0

/-- The character with a number, unless the number is that of a surrogate or too large. -/
def scalarValue? (n : Nat) : Option Char :=
  if n.isValidChar then some (.ofNat n) else none

/-- The character of an escape sequence after its backslash. -/
def escape? : List Char → Option (Char × List Char)
  | 'u' :: cs => do
    if cs.length < 4 then none
    return (← scalarValue? (← hexNumber? (cs.take 4)), cs.drop 4)
  | 'U' :: cs => do
    if cs.length < 8 then none
    return (← scalarValue? (← hexNumber? (cs.take 8)), cs.drop 8)
  | '/' :: _ => none
  | c :: cs => (Json.unescape? c).map fun c => (c, cs)
  | [] => none

/-- The rest of a string in quotes on one line. -/
def basic? : Nat → List Char → Option (List Char × List Char)
  | 0, _ => none
  | fuel + 1, cs =>
    match cs with
    | '"' :: cs => some ([], cs)
    | '\\' :: cs => do
      let (c, cs) ← escape? cs
      let (text, cs) ← basic? fuel cs
      return (c :: text, cs)
    | c :: cs => do
      if !isPrintable c then none
      let (text, cs) ← basic? fuel cs
      return (c :: text, cs)
    | [] => none

/-- The rest of a string in apostrophes on one line. -/
def verbatim? (cs : List Char) : Option (List Char × List Char) :=
  let inside (c : Char) : Bool := isPrintable c && c ≠ '\''
  match cs.dropWhile inside with
  | '\'' :: rest => some (cs.takeWhile inside, rest)
  | _ => none

/-- The text after a backslash at the end of a line: all blanks and ends of lines are dropped. -/
def continued? (fuel : Nat) (cs : List Char) : Option (List Char) := do
  let cs ← newline? (dropSpaces cs)
  return go fuel cs
where
  go : Nat → List Char → List Char
    | 0, cs => cs
    | fuel + 1, cs =>
      match newline? (dropSpaces cs) with
      | some cs => go fuel cs
      | none => dropSpaces cs

/-- The end of a string of several lines: up to two more quotes belong to the text. -/
def closing? (quote : Char) (cs : List Char) : Option (List Char × List Char) :=
  let count := (cs.takeWhile (· = quote)).length
  if count < 3 then none
  else
    let inside := min (count - 3) 2
    some (List.replicate inside quote, cs.drop (inside + 3))

/-- The rest of a string of several lines. Escapes are read if `escapes` holds. -/
def lines? (quote : Char) (escapes : Bool) : Nat → List Char → Option (List Char × List Char)
  | 0, _ => none
  | fuel + 1, cs =>
    match closing? quote cs, newline? cs, cs with
    | some done, _, _ => some done
    | none, some cs, _ => do
      let (text, cs) ← lines? quote escapes fuel cs
      return ('\n' :: text, cs)
    | none, none, c :: cs => do
      if escapes && c = '\\' then
        match continued? fuel cs with
        | some cs => lines? quote escapes fuel cs
        | none =>
          let (c, cs) ← escape? cs
          let (text, cs) ← lines? quote escapes fuel cs
          return (c :: text, cs)
      else
        if !isPrintable c then none
        let (text, cs) ← lines? quote escapes fuel cs
        return (c :: text, cs)
    | none, none, [] => none

/-- A string in quotes or apostrophes, over several lines if there are three of them. -/
def string? (fuel : Nat) : List Char → Option (List Char × List Char)
  | '"' :: '"' :: '"' :: cs => lines? '"' true fuel ((newline? cs).getD cs)
  | '\'' :: '\'' :: '\'' :: cs => lines? '\'' false fuel ((newline? cs).getD cs)
  | '"' :: cs => basic? fuel cs
  | '\'' :: cs => verbatim? cs
  | _ => none

def isKeyChar (c : Char) : Bool :=
  c.isAlphanum || c = '_' || c = '-'

def simpleKey? (cs : List Char) : Option (String × List Char) :=
  match cs with
  | '"' :: rest => (basic? cs.length rest).map fun (text, rest) => (.ofList text, rest)
  | '\'' :: rest => (verbatim? rest).map fun (text, rest) => (.ofList text, rest)
  | _ =>
    let name := cs.takeWhile isKeyChar
    if name.isEmpty then none else some (.ofList name, cs.dropWhile isKeyChar)

/-- How many names a dotted key may have. -/
def maxNames : Nat := 79

/-- A dotted key of at most `room` names: those before the last one, and the last one. -/
def key? (room : Nat) (cs : List Char) : Option ((List String × String) × List Char) :=
  match room with
  | 0 => none
  | room + 1 => do
    let (name, cs) ← simpleKey? (dropSpaces cs)
    match dropSpaces cs with
    | '.' :: cs =>
      let ((path, last), cs) ← key? room cs
      return ((name :: path, last), cs)
    | cs => return (([], name), cs)

end TemporalPattern.Toml
