import TemporalPattern.Number.Binary

/-!
# Decimal numerals

Numbers as they are written in JSON: a sign, digits, and perhaps a fraction and an exponent. A
numeral with neither is an integer if it fits 64 bits. Every other one is read as floating point
from the leading digits that fit 64 bits, scaled by powers of ten that are rounded themselves; the
result may be a last place off the nearest number.
-/

namespace TemporalPattern

structure Numeral where
  negative : Bool
  whole : List Char
  /-- The digits after the point, if there is one. -/
  fraction? : Option (List Char)
  /-- The sign and the digits of the exponent, if there is one. -/
  exponent? : Option (Bool × List Char)
  deriving DecidableEq, Repr

namespace Numeral

/-- The digits at the start of a text, if there are any, and the rest. -/
def digits? (cs : List Char) : Option (List Char × List Char) :=
  let digits := cs.takeWhile Char.isDigit
  if digits.isEmpty then none else some (digits, cs.dropWhile Char.isDigit)

/-- The digits before the point: a zero, or digits that do not begin with one. -/
def whole? : List Char → Option (List Char × List Char)
  | '0' :: cs => if (cs.head?.map Char.isDigit).getD false then none else some (['0'], cs)
  | cs => digits? cs

/-- Whether a text begins with a minus, and what follows it. -/
def sign : List Char → Bool × List Char
  | '-' :: cs => (true, cs)
  | cs => (false, cs)

/-- The digits after a point, if there is one, and the rest. -/
def readFraction? : List Char → Option (Option (List Char) × List Char)
  | '.' :: cs => (digits? cs).map fun (fraction, cs) => (some fraction, cs)
  | cs => some (none, cs)

/-- Whether an exponent is negative, and its digits with the rest. -/
def exponentSign : List Char → Bool × List Char
  | '-' :: cs => (true, cs)
  | '+' :: cs => (false, cs)
  | cs => (false, cs)

/-- The sign and the digits of an exponent, if there is one, and the rest. -/
def readExponent? : List Char → Option (Option (Bool × List Char) × List Char)
  | 'e' :: cs | 'E' :: cs =>
    let (below, cs) := exponentSign cs
    (digits? cs).map fun (exponent, cs) => (some (below, exponent), cs)
  | cs => some (none, cs)

/-- The numeral at the start of a text, and the rest. -/
def read? (cs : List Char) : Option (Numeral × List Char) := do
  let (negative, cs) := sign cs
  let (whole, cs) ← whole? cs
  let (fraction?, cs) ← readFraction? cs
  let (exponent?, cs) ← readExponent? cs
  return (⟨negative, whole, fraction?, exponent?⟩, cs)

/-- The value of an integer that fits 64 bits, without a sign or with one. Minus zero is none. -/
def integer? (n : Numeral) : Option Int :=
  let value := Nat.ofDigitChars 10 n.whole 0
  if n.fraction?.isSome ∨ n.exponent?.isSome then none
  else if n.negative then if 0 < value ∧ 2 * value ≤ Int64.size then some (-value) else none
  else if value < UInt64.size then some value else none

/-- Appends digits to a number as long as it stays below `2 ^ 64`. The rest is given back. -/
def absorb : Nat → List Char → Nat × List Char
  | n, [] => (n, [])
  | n, c :: cs =>
    let next := 10 * n + (c.toNat - '0'.toNat)
    if next < UInt64.size then absorb next cs else (n, c :: cs)

/-- A floating point number divided by a power of ten, in steps of at most `10 ^ 308`. -/
def scaleDown (x : Binary .binary64) (k : Nat) : Binary .binary64 :=
  if 308 < k ∧ x.bits ≠ 0 then scaleDown (x.div (.ofInt (Nat.pow 10 308))) (k - 308)
  else x.div (.ofInt (Nat.pow 10 (min k 308)))
termination_by k

/-- The magnitude `n * 10 ^ exponent`, unless it is out of range. -/
def scale? (n : Nat) (exponent : Int) : Option (Binary .binary64) :=
  let x := Binary.ofInt n
  if exponent < 0 then some (scaleDown x exponent.natAbs)
  else if n = 0 then some x
  else if 308 < exponent then none
  else
    let y := x.mul (.ofInt (Nat.pow 10 exponent.natAbs))
    if y.isInfinite then none else some y

/-- The value as a floating point number, unless it is out of range. -/
def toFloat64? (n : Numeral) : Option (Binary .binary64) := do
  let fraction := n.fraction?.getD []
  let (significand, dropped) := absorb 0 n.whole
  let (significand, unused) := absorb significand fraction
  let written : Int := match n.exponent? with
    | some (true, ds) => -(Nat.ofDigitChars 10 ds 0 : Int)
    | some (false, ds) => (Nat.ofDigitChars 10 ds 0 : Int)
    | none => 0
  let magnitude ← scale? significand
    (written + dropped.length - (fraction.length - unused.length : Nat))
  return if n.negative then magnitude.negate else magnitude

end Numeral
end TemporalPattern
