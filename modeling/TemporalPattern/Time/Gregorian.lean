import TemporalPattern.Time.Almanac

/-!
# The Gregorian almanac

An almanac that can be run. Its reader goes through a text from the front, item by item of the
pattern, and takes as many digits for a number as the width of the number allows.
-/

namespace TemporalPattern

namespace Pattern

/-- Between one and `width` decimal digits at the start of a text. -/
def number? (width : Nat) (cs : List Char) : Option (Nat × List Char) :=
  let digits := (cs.takeWhile Char.isDigit).take width
  if digits.isEmpty then none
  else some (Nat.ofDigitChars 10 digits 0, cs.drop digits.length)

/-- A year: at most four digits, or a sign and any number of digits. -/
def year? : List Char → Option (Int × List Char)
  | '-' :: cs => (number? cs.length cs).map fun (n, rest) => (-n, rest)
  | '+' :: cs => (number? cs.length cs).map fun (n, rest) => (n, rest)
  | cs => (number? 4 cs).map fun (n, rest) => (n, rest)

/-- A part of a stamp after any blanks. -/
def part? (r : Stamp.Part) (cs : List Char) : Option (Int × List Char) :=
  let cs := Text.dropBlanks cs
  match r with
  | .year => year? cs
  | _ => (number? 2 cs).map fun (n, rest) => (n, rest)

/-- The text after a mark it starts with. -/
def mark? (mark : Char) : List Char → Option (List Char)
  | c :: cs => if c = mark then some cs else none
  | [] => none

/-- The number `k` for one part, and for the others those of `value`. -/
def assign (r : Stamp.Part) (k : Int) (value : Stamp.Part → Int) : Stamp.Part → Int :=
  fun r' => if r' = r then k else value r'

/-- The parts of a stamp in a whole text. Those that the pattern leaves out are zero. -/
def read? : Pattern → List Char → Option (Stamp.Part → Int)
  | [], cs => if cs.isEmpty then some fun _ => 0 else none
  | .part r :: q, cs => do
    let (k, cs) ← part? r cs
    let value ← read? q cs
    return assign r k value
  | .mark c :: q, cs => do read? q (← mark? c cs)
  | .fraction :: _, _ => none

end Pattern

namespace Stamp

/-- The stamp with the given parts. -/
def ofParts (value : Part → Int) : Stamp :=
  let leap := value .second = 60
  { date := ⟨value .year, (value .month).toNat, (value .day).toNat⟩
    hour := (value .hour).toNat
    minute := (value .minute).toNat
    second := if leap then 59 else (value .second).toNat
    nanosecond := if leap then 1000000000 else 0 }

/-- The stamp so many milliseconds after the epoch. -/
def ofMillis (n : Int) : Stamp :=
  let rest := (n % 86400000).toNat
  { date := .ofDayNumber (n / 86400000)
    hour := rest / 3600000
    minute := rest / 60000 % 60
    second := rest / 1000 % 60
    nanosecond := rest % 1000 * 1000000 }

/-- The stamp, if it exists. -/
def check? (s : Stamp) : Option Stamp :=
  if s.Valid then some s else none

end Stamp

/-- The stamp that stands in a text. -/
def Pattern.stamp? (p : Pattern) (text : String) : Option Stamp :=
  (p.read? text.toList).bind fun value => (Stamp.ofParts value).check?

def Almanac.gregorian : Almanac where
  readDate? p text := (p.stamp? text).map (·.date)
  readStamp? := Pattern.stamp?
  at? date hour minute second := Stamp.check? ⟨date, hour, minute, second, 0⟩
  millis s := .ofInt s.millis
  stamp? time := (Stamp.ofMillis time.toInt).check?
  write p s := .ofList (p.text s)

end TemporalPattern
