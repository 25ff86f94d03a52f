import TemporalPattern.Number.Binary

/-!
# Decimal text of floating point numbers

The shortest decimal that reads back as a given number, and the nearest of several. `Tie` and
`Layout` hold what a notation is free to choose.
-/

namespace TemporalPattern

/-- Which of two equally near decimals is taken. -/
inductive Tie where
  | up
  | even
  deriving DecidableEq, Repr

/-- The positive decimal `d.ddd * 10 ^ lead` with the given digits, the last of them not zero. -/
structure Decimal where
  digits : List Char
  lead : Int
  deriving DecidableEq, Repr

namespace Decimal

/-- The exponent of the largest power of ten that is at most `num / den`. -/
def floorLog10 (num den : Nat) : Int :=
  let scale := (Nat.toDigits 10 den).length
  (Nat.toDigits 10 (num * Nat.pow 10 scale / den)).length - 1 - scale

/-- The decimal `n * 10 ^ exponent`. -/
def ofScaled (n : Nat) (exponent : Int) : Decimal :=
  let digits := Nat.toDigits 10 n
  ⟨(digits.reverse.dropWhile (· = '0')).reverse, exponent + digits.length - 1⟩

/-- The integer nearest to `num / den` among the two around it that lie between `low / den` and
`high / den`. -/
def nearest? (tie : Tie) (closed : Bool) (low num high den : Nat) : Option Nat :=
  let below := num / den
  let rest := num % den
  let inside (n : Nat) : Bool :=
    if closed then low ≤ n * den && n * den ≤ high else low < n * den && n * den < high
  let upward : Bool := match tie with
    | .up => den ≤ 2 * rest
    | .even => den < 2 * rest || (den = 2 * rest && below % 2 = 1)
  match inside below, inside (below + 1) with
  | true, true => some (if upward then below + 1 else below)
  | true, false => some below
  | false, true => some (below + 1)
  | false, false => none

/-- The shortest decimal that rounds to the number `significand * 2 ^ exponent` of a format. The
numbers around it end halfway to the next ones, of which the lower one is half as far away where
the exponent changes; the ends belong to it if its significand is even. -/
def shortest (f : FloatFormat) (tie : Tie) (significand : Nat) (exponent : Int) : Decimal :=
  let value := 4 * significand
  let boundary := significand = 1 <<< f.fractionBits ∧ f.minExponent < exponent
  let low := value - if boundary then 1 else 2
  let high := value + 2
  let num := 1 <<< (exponent - 2).toNat
  let den := 1 <<< (2 - exponent).toNat
  let lead := floorLog10 (value * num) den
  let longest := 2 + (f.fractionBits + 1) * 30103 / 100000
  let attempt (length : Nat) : Option Decimal :=
    let place := lead - length
    let num := num * Nat.pow 10 (-place).toNat
    let den := den * Nat.pow 10 place.toNat
    (nearest? tie (significand % 2 = 0) (low * num) (value * num) (high * num) den).map
      (ofScaled · place)
  ((List.range longest).findSome? attempt).getD ⟨['0'], 0⟩

end Decimal

/-- A notation for floating point numbers. -/
structure Layout where
  tie : Tie
  /-- Whether a number whose first digit has this exponent is written without an exponent. -/
  positional : Int → Bool
  /-- What follows the digits of an integer that is written without an exponent. -/
  integerEnd : String
  nan : String
  infinity : String
  negativeInfinity : String

namespace Layout

/-- A decimal without an exponent. -/
def writePositional (layout : Layout) (d : Decimal) : String :=
  if d.lead < 0 then
    "0." ++ .ofList (List.replicate (-d.lead - 1).toNat '0' ++ d.digits)
  else
    let whole := d.lead.toNat + 1
    if d.digits.length ≤ whole then
      .ofList (d.digits ++ List.replicate (whole - d.digits.length) '0') ++ layout.integerEnd
    else
      .ofList (d.digits.take whole) ++ "." ++ .ofList (d.digits.drop whole)

/-- A decimal with one digit before the point and a signed exponent. -/
def writeScientific (d : Decimal) : String :=
  let fraction := d.digits.drop 1
  String.ofList (d.digits.take 1) ++ (if fraction.isEmpty then "" else "." ++ .ofList fraction) ++
    (if d.lead < 0 then "e-" else "e+") ++ toString d.lead.natAbs

def write {f : FloatFormat} (layout : Layout) (x : Binary f) : String :=
  match x.unpack with
  | .nan => layout.nan
  | .infinite negative => if negative then layout.negativeInfinity else layout.infinity
  | .finite negative significand exponent =>
    let d := if significand = 0 then ⟨['0'], 0⟩
      else Decimal.shortest f layout.tie significand exponent
    (if negative then "-" else "") ++
      if layout.positional d.lead then layout.writePositional d else writeScientific d

/-- Plain digits, however many. -/
def plain : Layout where
  tie := .up
  positional _ := true
  integerEnd := ""
  nan := "NaN"
  infinity := "inf"
  negativeInfinity := "-inf"

end Layout
end TemporalPattern
