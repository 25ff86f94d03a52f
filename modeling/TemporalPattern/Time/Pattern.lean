import TemporalPattern.Text.Blank
import TemporalPattern.Time.Stamp

/-!
# Patterns for stamps

A pattern is a list of parts of a stamp and of marks between them. `text` is the text that a stamp
has in a pattern; `Names` says which texts stand for a stamp in a pattern. These are more: a number
in them may have blanks before it and fewer digits, a year may have a sign and then any number of
digits.
-/

namespace TemporalPattern

inductive Pattern.Item where
  | part (part : Stamp.Part)
  | mark (c : Char)
  /-- A point and three digits for the milliseconds. -/
  | fraction
  deriving DecidableEq, Repr

abbrev Pattern := List Pattern.Item

namespace Pattern

/-- `%Y-%m-%d` -/
def day : Pattern :=
  [.part .year, .mark '-', .part .month, .mark '-', .part .day]

/-- `%Y-%m-%dT%H:%M` -/
def toMinute : Pattern :=
  day ++ [.mark 'T', .part .hour, .mark ':', .part .minute]

/-- `%Y-%m-%dT%H:%M:%S` -/
def toSecond : Pattern :=
  toMinute ++ [.mark ':', .part .second]

/-- `%Y-%m-%dT%H:%M:%S%.3f` -/
def toMilli : Pattern :=
  toSecond ++ [.fraction]

/-! ## Writing -/

/-- Decimal digits with zeros in front up to a width. -/
def padded (width n : Nat) : List Char :=
  let digits := Nat.toDigits 10 n
  List.replicate (width - digits.length) '0' ++ digits

/-- Four digits for the years 0 to 9999, for all others a sign and at least four digits. -/
def yearText (year : Int) : List Char :=
  if 0 ≤ year ∧ year ≤ 9999 then padded 4 year.natAbs
  else (if year < 0 then '-' else '+') :: padded 4 year.natAbs

def Item.text (s : Stamp) : Item → List Char
  | part .year => yearText s.date.year
  | part p => padded 2 (s.part p).natAbs
  | mark c => [c]
  | fraction => '.' :: padded 3 (s.nanosecond % 1000000000 / 1000000)

/-- The text of a stamp. -/
def text (p : Pattern) (s : Stamp) : List Char :=
  p.flatMap (·.text s)

/-! ## Reading -/

/-- A text of between `least` and `most` digits, and the number that they stand for. -/
structure IsNumber (least most : Nat) (cs : List Char) (n : Nat) : Prop where
  least : least ≤ cs.length
  most : cs.length ≤ most
  digits : ∀ c ∈ cs, c.isDigit
  value : Nat.ofDigitChars 10 cs 0 = n

instance (least most : Nat) (cs : List Char) (n : Nat) : Decidable (IsNumber least most cs n) :=
  decidable_of_iff (least ≤ cs.length ∧ cs.length ≤ most ∧ cs.all Char.isDigit ∧
      Nat.ofDigitChars 10 cs 0 = n)
    ⟨fun ⟨hleast, hmost, hdigits, hvalue⟩ => ⟨hleast, hmost, List.all_eq_true.1 hdigits, hvalue⟩,
      fun ⟨hleast, hmost, hdigits, hvalue⟩ =>
        ⟨hleast, hmost, List.all_eq_true.2 hdigits, hvalue⟩⟩

/-- A text with any number of blanks before one with a property. -/
def AfterBlanks (P : List Char → Prop) (cs : List Char) : Prop :=
  ∃ blanks ds, (∀ c ∈ blanks, Text.isBlank c) ∧ P ds ∧ cs = blanks ++ ds

/-- At most four digits, or a sign and any number of digits. -/
inductive IsYear : List Char → Int → Prop where
  | plain {ds : List Char} {n : Nat} (h : IsNumber 1 4 ds n) : IsYear ds n
  | negative {ds : List Char} {n : Nat} (h : IsNumber 1 ds.length ds n) : IsYear ('-' :: ds) (-n)
  | positive {ds : List Char} {n : Nat} (h : IsNumber 1 ds.length ds n) : IsYear ('+' :: ds) n

/-- The texts that stand for the number `k` as a part of a stamp. -/
def Spells : Stamp.Part → List Char → Int → Prop
  | .year, cs, k => AfterBlanks (IsYear · k) cs
  | _, cs, k => ∃ n : Nat, AfterBlanks (IsNumber 1 2 · n) cs ∧ k = n

/-- The texts that have the form of a pattern, with given numbers for the parts. A fraction is
only written. -/
inductive Matches (value : Stamp.Part → Int) : Pattern → List Char → Prop where
  | nil : Matches value [] []
  | part {p : Stamp.Part} {q : Pattern} {ds cs : List Char} (hp : Spells p ds (value p))
      (hq : Matches value q cs) : Matches value (.part p :: q) (ds ++ cs)
  | mark {c : Char} {q : Pattern} {cs : List Char} (hq : Matches value q cs) :
      Matches value (.mark c :: q) (c :: cs)

/-- Whether a text stands for a stamp: it has the form of the pattern, and what the pattern leaves
out is zero. -/
structure Names (p : Pattern) (s : Stamp) (cs : List Char) : Prop where
  valid : s.Valid
  matched : Matches s.part p cs
  unnamed : ∀ q : Stamp.Part, .part q ∉ p → s.part q = 0
  whole : s.nanosecond % 1000000000 = 0

end Pattern
end TemporalPattern
