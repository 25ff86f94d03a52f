import TemporalPattern.Number.Decimal
import TemporalPattern.Settings.Toml.Text
import TemporalPattern.Time.Calendar
import TemporalPattern.Time.Millis

/-!
# Numbers and dates of TOML

Readers that return the text a number or a date has as a label: integers and floating point numbers
in plain decimal digits, dates with a capital `T` and `Z`.
-/

namespace TemporalPattern.Toml

/-- Digits with single underscores between them. -/
def digits? (isDigit : Char → Bool) : List Char → Option (List Char × List Char)
  | c :: '_' :: d :: cs =>
    if isDigit c then
      if isDigit d then (digits? isDigit (d :: cs)).map fun (ds, rest) => (c :: ds, rest)
      else none
    else none
  | c :: cs =>
    if isDigit c then
      match cs with
      | d :: _ =>
        if isDigit d then (digits? isDigit cs).map fun (ds, rest) => (c :: ds, rest)
        else if d = '_' then none
        else some ([c], cs)
      | [] => some ([c], [])
    else none
  | [] => none

/-- A sign, if there is one: whether it is a minus, and the rest. -/
def sign : List Char → Bool × List Char
  | '-' :: cs => (true, cs)
  | '+' :: cs => (false, cs)
  | cs => (false, cs)

/-- The digits of a decimal integer: a zero, or digits that do not begin with one. -/
def whole? : List Char → Option (List Char × List Char)
  | '0' :: cs => some (['0'], cs)
  | cs => digits? Char.isDigit cs

/-- A decimal integer with or without a sign. -/
def decimal? (cs : List Char) : Option (Int × List Char) := do
  let (negative, cs) := sign cs
  let (ds, cs) ← whole? cs
  let n : Int := Nat.ofDigitChars 10 ds 0
  return (if negative then -n else n, cs)

/-- An integer of another base, after the letter that names the base. -/
def based? (base : Nat) (cs : List Char) : Option (Int × List Char) := do
  let (ds, cs) ← digits? (fun c => (Json.hexDigit? c).any (· < base)) cs
  let n := ds.foldl (fun n c => base * n + (Json.hexDigit? c).getD 0) 0
  return (n, cs)

/-- An integer of 64 bits. -/
def integer? (cs : List Char) : Option (String × List Char) := do
  let (value, rest) ← match cs with
    | '0' :: 'x' :: cs => based? 16 cs
    | '0' :: 'o' :: cs => based? 8 cs
    | '0' :: 'b' :: cs => based? 2 cs
    | cs => decimal? cs
  let value ← Millis.ofInt? value
  return (toString value, rest)

/-- The floating point number nearest to `0.digits * 10 ^ exponent`. -/
def nearest (negative : Bool) (digits : List Char) (exponent : Int) : Binary .binary64 :=
  let digits := digits.dropWhile (· = '0')
  let n := Nat.ofDigitChars 10 digits 0
  let place := exponent - digits.length
  if digits.isEmpty ∨ exponent < -400 then .pack negative 0
  else if 400 < exponent then .infinity negative
  else .ofRatio negative (n * Nat.pow 10 place.toNat) (Nat.pow 10 (-place).toNat)

def exponent? : List Char → Option (Int × List Char)
  | 'e' :: cs | 'E' :: cs => do
    let (negative, cs) := sign cs
    let (ds, cs) ← digits? Char.isDigit cs
    let n : Int := Nat.ofDigitChars 10 ds 0
    return (if negative then -n else n, cs)
  | _ => none

/-- The fraction and the exponent of a number, at least one of which is written. -/
def fraction? (cs : List Char) : Option ((List Char × Int) × List Char) :=
  match cs with
  | '.' :: cs => do
    let (fraction, cs) ← digits? Char.isDigit cs
    match cs with
    | 'e' :: _ | 'E' :: _ => (exponent? cs).map fun (exponent, cs) => ((fraction, exponent), cs)
    | _ => some ((fraction, 0), cs)
  | cs => (exponent? cs).map fun (exponent, cs) => (([], exponent), cs)

/-- A floating point number. It may be too large only if it is negative. -/
def float? (cs : List Char) : Option (String × List Char) := do
  let (negative, cs) := sign cs
  match cs with
  | 'i' :: 'n' :: 'f' :: cs => some (if negative then "-inf" else "inf", cs)
  | 'n' :: 'a' :: 'n' :: cs => some ("NaN", cs)
  | cs =>
    let (ds, cs) ← whole? cs
    let ((fraction, exponent), cs) ← fraction? cs
    let all := ds ++ fraction
    let leading := (all.takeWhile (· = '0')).length
    let x := nearest negative all (exponent + ds.length - leading)
    if x.isInfinite ∧ ¬ negative then none else some (Layout.plain.write x, cs)

/-- A number of exactly `count` digits within bounds. -/
def field? (count least greatest : Nat) (cs : List Char) : Option (List Char × List Char) :=
  let ds := cs.take count
  let n := Nat.ofDigitChars 10 ds 0
  if ds.length = count ∧ ds.all Char.isDigit ∧ least ≤ n ∧ n ≤ greatest then
    some (ds, cs.drop count)
  else none

def mark? (mark : Char) : List Char → Option (List Char)
  | c :: cs => if c = mark then some cs else none
  | [] => none

def date? (cs : List Char) : Option (List Char × List Char) := do
  let (year, cs) ← field? 4 0 9999 cs
  let (month, cs) ← field? 2 1 12 (← mark? '-' cs)
  let (day, cs) ← field? 2 1 31 (← mark? '-' cs)
  let date : Date :=
    ⟨(Nat.ofDigitChars 10 year 0 : Nat), Nat.ofDigitChars 10 month 0, Nat.ofDigitChars 10 day 0⟩
  if date.Valid then some (year ++ '-' :: month ++ '-' :: day, cs) else none

/-- A time of day. Of a fraction nine digits are kept, without zeros at the end. -/
def time? (cs : List Char) : Option (List Char × List Char) := do
  let (hour, cs) ← field? 2 0 23 cs
  let (minute, cs) ← field? 2 0 59 (← mark? ':' cs)
  let (second, cs) ← field? 2 0 60 (← mark? ':' cs)
  let (fraction, cs) ← match cs with
    | '.' :: cs =>
      let ds := cs.takeWhile Char.isDigit
      if ds.isEmpty then none
      else some (((ds.take 9).reverse.dropWhile (· = '0')).reverse, cs.dropWhile Char.isDigit)
    | cs => some ([], cs)
  let clock := hour ++ ':' :: minute ++ ':' :: second
  return (if fraction.isEmpty then clock else clock ++ '.' :: fraction, cs)

/-- The offset of a time from universal time. -/
def offset? : List Char → Option (List Char × List Char)
  | 'Z' :: cs | 'z' :: cs => some (['Z'], cs)
  | c :: cs => do
    if c ≠ '+' ∧ c ≠ '-' then none
    let (hour, cs) ← field? 2 0 23 cs
    let (minute, cs) ← field? 2 0 59 (← mark? ':' cs)
    let zero := (hour ++ minute).all (· = '0')
    return ((if zero then '+' else c) :: hour ++ ':' :: minute, cs)
  | [] => none

/-- A date, a time of day, or both with or without an offset. -/
def dateTime? (cs : List Char) : Option (String × List Char) :=
  match date? cs with
  | some (date, cs) =>
    let clock := match cs with
      | c :: cs => if c = 'T' ∨ c = 't' ∨ c = ' ' then time? cs else none
      | [] => none
    match clock with
    | none => some (.ofList date, cs)
    | some (time, cs) =>
      match offset? cs with
      | none => some (.ofList (date ++ 'T' :: time), cs)
      | some (offset, cs) => some (.ofList (date ++ 'T' :: time ++ offset), cs)
  | none => (time? cs).map fun (time, cs) => (.ofList time, cs)

end TemporalPattern.Toml
