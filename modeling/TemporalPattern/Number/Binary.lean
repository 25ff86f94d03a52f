/-!
# Binary floating point numbers

Numbers of the IEEE 754 interchange formats, held as their bits. Everything is computed exactly on
integers: `unpack` gives sign, significand and exponent, `ofRatio` rounds a quotient to the nearest
number of a format.
-/

namespace TemporalPattern

/-- An interchange format: one sign bit, then the exponent, then the fraction. -/
structure FloatFormat where
  exponentBits : Nat
  fractionBits : Nat
  deriving DecidableEq, Repr

namespace FloatFormat

def binary32 : FloatFormat := ⟨8, 23⟩

def binary64 : FloatFormat := ⟨11, 52⟩

def width (f : FloatFormat) : Nat :=
  1 + f.exponentBits + f.fractionBits

/-- The exponent of the last place of the smallest numbers. -/
def minExponent (f : FloatFormat) : Int :=
  2 - (1 <<< (f.exponentBits - 1) : Nat) - f.fractionBits

/-- The bits of infinity, which follow those of the largest number. -/
def infinityBits (f : FloatFormat) : Nat :=
  (1 <<< f.exponentBits - 1) <<< f.fractionBits

end FloatFormat

/-- A floating point number. -/
structure Binary (f : FloatFormat) where
  bits : BitVec f.width
  deriving DecidableEq, Repr

/-- What the bits of a number say. A finite number is `significand * 2 ^ exponent`. -/
inductive Unpacked where
  | nan
  | infinite (negative : Bool)
  | finite (negative : Bool) (significand : Nat) (exponent : Int)
  deriving DecidableEq, Repr

/-- The integer nearest to `num / den`, the even one of two. -/
def roundHalfEven (num den : Nat) : Nat :=
  let q := num / den
  let r := num % den
  if 2 * r < den ∨ (2 * r = den ∧ q % 2 = 0) then q else q + 1

/-- The exponent of the largest power of two that is at most `num / den`. -/
def floorLog2 (num den : Nat) : Int :=
  let k : Int := num.log2 - den.log2
  if den <<< k.toNat ≤ num <<< (-k).toNat then k else k - 1

namespace Binary

variable {f g : FloatFormat}

def unpack (x : Binary f) : Unpacked :=
  let negative := x.bits.msb
  let magnitude := x.bits.toNat % (1 <<< (f.exponentBits + f.fractionBits))
  let exponent := magnitude >>> f.fractionBits
  let fraction := magnitude % (1 <<< f.fractionBits)
  if exponent = 1 <<< f.exponentBits - 1 then
    if fraction = 0 then .infinite negative else .nan
  else if exponent = 0 then .finite negative fraction f.minExponent
  else .finite negative (1 <<< f.fractionBits + fraction) (f.minExponent + (exponent - 1 : Nat))

/-- The number with a given sign and given bits after it. -/
def pack (negative : Bool) (magnitude : Nat) : Binary f :=
  ⟨.ofNat _ (negative.toNat <<< (f.exponentBits + f.fractionBits) + magnitude)⟩

def infinity (negative : Bool) : Binary f :=
  pack negative f.infinityBits

def nan : Binary f :=
  pack false (f.infinityBits + 1 <<< (f.fractionBits - 1))

/-- The number nearest to `num / den`, the one with an even last place of two; infinity from
half a place above the largest number on. -/
def ofRatio (negative : Bool) (num den : Nat) : Binary f :=
  if num = 0 then pack negative 0
  else
    let exponent := max f.minExponent (floorLog2 num den - f.fractionBits)
    let significand := roundHalfEven (num <<< (-exponent).toNat) (den <<< exponent.toNat)
    let places := (exponent - f.minExponent).toNat <<< f.fractionBits + significand
    pack negative (min places f.infinityBits)

/-- The number nearest to an integer. -/
def ofInt (n : Int) : Binary f :=
  ofRatio (n < 0) n.natAbs 1

/-- The nearest number of another format. -/
def convert (x : Binary f) : Binary g :=
  match x.unpack with
  | .nan => nan
  | .infinite negative => infinity negative
  | .finite negative significand exponent =>
    ofRatio negative (significand <<< exponent.toNat) (1 <<< (-exponent).toNat)

def isInfinite (x : Binary f) : Bool :=
  match x.unpack with
  | .infinite _ => true
  | _ => false

def isFinite (x : Binary f) : Bool :=
  match x.unpack with
  | .finite _ _ _ => true
  | _ => false

/-- The other sign. -/
def negate (x : Binary f) : Binary f :=
  ⟨x.bits ^^^ BitVec.twoPow _ (f.exponentBits + f.fractionBits)⟩

end Binary

namespace Unpacked

/-- A finite number in units of `2 ^ unit`, for a unit that is not above its exponent. -/
def scaled (unit : Int) (negative : Bool) (significand : Nat) (exponent : Int) : Int :=
  (if negative then -1 else 1) * (significand <<< (exponent - unit).toNat : Nat)

/-- The order of two numbers by value. The zeros are equal, and there is none to a NaN. -/
def compare? : Unpacked → Unpacked → Option Ordering
  | nan, _ | _, nan => none
  | infinite s, infinite t => some (compare t s)
  | infinite s, finite _ _ _ => some (if s then .lt else .gt)
  | finite _ _ _, infinite t => some (if t then .gt else .lt)
  | finite s m e, finite t n k =>
    some (compare (scaled (min e k) s m e) (scaled (min e k) t n k))

end Unpacked

namespace Binary

variable {f : FloatFormat}

def compare? (x y : Binary f) : Option Ordering :=
  x.unpack.compare? y.unpack

/-- The nearest number to a product. -/
def mul (x y : Binary f) : Binary f :=
  match x.unpack, y.unpack with
  | .finite s m e, .finite t n k =>
    let exponent := e + k
    ofRatio (s != t) ((m * n) <<< exponent.toNat) (1 <<< (-exponent).toNat)
  | .infinite s, .finite t n _ | .finite t n _, .infinite s =>
    if n = 0 then nan else infinity (s != t)
  | .infinite s, .infinite t => infinity (s != t)
  | .nan, _ | _, .nan => nan

/-- The nearest number to a quotient. -/
def div (x y : Binary f) : Binary f :=
  match x.unpack, y.unpack with
  | .finite s m e, .finite t n k =>
    if n = 0 then if m = 0 then nan else infinity (s != t)
    else
      let exponent := e - k
      ofRatio (s != t) (m <<< exponent.toNat) (n <<< (-exponent).toNat)
  | .infinite s, .finite t _ _ => infinity (s != t)
  | .finite s _ _, .infinite t => pack (s != t) 0
  | .infinite _, .infinite _ => nan
  | .nan, _ | _, .nan => nan

end Binary
end TemporalPattern
