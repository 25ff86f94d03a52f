import Mathlib.Data.List.DropRight
import TemporalPattern.Number.Decimal
import TemporalPattern.Number.Numeral
import TemporalPattern.Proofs.Digits

/-!
# Numerals are read as they are written

A numeral is read back from its text, whatever follows it, as long as that does not go on as a
numeral.  Integers are written as numerals of themselves; a floating point number is written with a
point or an exponent, so its numeral is not that of an integer.
-/

namespace TemporalPattern

namespace Numeral

/-! ## Texts of numerals -/

/-- The text does not go on with anything that would be read as part of a numeral. -/
def Ends (cs : List Char) : Prop :=
  ∀ c ∈ cs.head?, c.isDigit = false ∧ c ≠ '.' ∧ c ≠ 'e' ∧ c ≠ 'E'

theorem Ends.endsDigits {cs : List Char} (h : Ends cs) : EndsDigits cs :=
  fun c hc => (h c hc).1

theorem ends_nil : Ends [] :=
  fun _ h => by simp at h

/-- The text of a point and the digits after it, if there is one. -/
def fractionText : Option (List Char) → List Char
  | some ds => '.' :: ds
  | none => []

/-- The text of an exponent, if there is one. It has a sign. -/
def exponentText : Option (Bool × List Char) → List Char
  | some (below, ds) => 'e' :: (if below then '-' else '+') :: ds
  | none => []

def signText (negative : Bool) : List Char :=
  if negative then ['-'] else []

def text (n : Numeral) : List Char :=
  signText n.negative ++
    (n.whole ++ (fractionText n.fraction? ++ exponentText n.exponent?))

structure WellFormed (n : Numeral) : Prop where
  whole : IsDigits n.whole
  /-- No other whole part begins with a zero. -/
  zero : n.whole.head? = some '0' → n.whole = ['0']
  fraction : ∀ ds ∈ n.fraction?, IsDigits ds
  exponent : ∀ e ∈ n.exponent?, IsDigits e.2

variable {rest : List Char}

theorem digits?_append {ds : List Char} (hds : IsDigits ds) (hrest : EndsDigits rest) :
    digits? (ds ++ rest) = some (ds, rest) := by
  have hne : ds.isEmpty = false := by simp [hds.ne_nil]
  simp only [digits?, List.takeWhile_append_of_pos hds.digits, hrest.takeWhile, List.append_nil,
    hne, List.dropWhile_append_of_pos hds.digits, hrest.dropWhile]
  rfl

theorem whole?_append {ds : List Char} (hds : IsDigits ds)
    (hzero : ds.head? = some '0' → ds = ['0']) (hrest : EndsDigits rest) :
    whole? (ds ++ rest) = some (ds, rest) := by
  obtain ⟨c, cs, rfl⟩ := List.exists_cons_of_ne_nil hds.ne_nil
  by_cases hc : c = '0'
  · obtain ⟨rfl, rfl⟩ := List.cons.inj (hzero (by rw [hc, List.head?_cons]))
    have hnext : (rest.head?.map Char.isDigit).getD false = false := by
      cases rest with
      | nil => rfl
      | cons c cs => exact hrest c rfl
    simp [whole?, hnext]
  · rw [List.cons_append, whole?, ← List.cons_append, digits?_append hds hrest]
    intro cs' hcs
    exact hc (List.cons.inj hcs).1

theorem readFraction?_append {fraction? : Option (List Char)}
    (hfraction : ∀ ds ∈ fraction?, IsDigits ds) (hrest : EndsDigits rest)
    (hpoint : rest.head? ≠ some '.') :
    readFraction? (fractionText fraction? ++ rest) = some (fraction?, rest) := by
  cases fraction? with
  | none =>
      rw [fractionText, List.nil_append, readFraction?]
      rintro cs rfl
      exact hpoint rfl
  | some ds =>
      have hdigits := digits?_append (hfraction _ rfl) hrest
      simp [fractionText, readFraction?, hdigits]

theorem readExponent?_append {exponent? : Option (Bool × List Char)}
    (hexponent : ∀ e ∈ exponent?, IsDigits e.2) (hrest : Ends rest) :
    readExponent? (exponentText exponent? ++ rest) = some (exponent?, rest) := by
  cases exponent? with
  | none =>
      rw [exponentText, List.nil_append, readExponent?]
      · rintro cs rfl
        exact (hrest 'e' rfl).2.2.1 rfl
      · rintro cs rfl
        exact (hrest 'E' rfl).2.2.2 rfl
  | some e =>
      obtain ⟨below, ds⟩ := e
      have hdigits := digits?_append (hexponent _ rfl) hrest.endsDigits
      cases below <;> simp [exponentText, readExponent?, exponentSign, hdigits]

theorem sign_append {whole : List Char} (negative : Bool) (hwhole : IsDigits whole) :
    sign (signText negative ++ (whole ++ rest)) = (negative, whole ++ rest) := by
  obtain ⟨c, cs, rfl⟩ := List.exists_cons_of_ne_nil hwhole.ne_nil
  cases negative with
  | true => rfl
  | false =>
      have hdigit := hwhole.digits c List.mem_cons_self
      simp only [signText, Bool.false_eq_true, if_false, List.nil_append, List.cons_append]
      rw [sign]
      intro cs' hcs
      rw [(List.cons.inj hcs).1] at hdigit
      exact absurd hdigit (by decide)

theorem endsDigits_exponentText (exponent? : Option (Bool × List Char)) (hrest : Ends rest) :
    EndsDigits (exponentText exponent? ++ rest) ∧
      (exponentText exponent? ++ rest).head? ≠ some '.' := by
  cases exponent? with
  | none => exact ⟨hrest.endsDigits, fun h => (hrest '.' h).2.1 rfl⟩
  | some e =>
      refine ⟨?_, by simp [exponentText]⟩
      rintro c ⟨⟩
      decide

theorem endsDigits_fractionText (fraction? : Option (List Char)) (hrest : EndsDigits rest) :
    EndsDigits (fractionText fraction? ++ rest) := by
  cases fraction? with
  | none => exact hrest
  | some ds =>
      rintro c ⟨⟩
      decide

theorem read?_text {n : Numeral} (hn : n.WellFormed) (hrest : Ends rest) :
    read? (n.text ++ rest) = some (n, rest) := by
  obtain ⟨hends, hpoint⟩ := endsDigits_exponentText n.exponent? hrest
  have hexponent := readExponent?_append hn.exponent hrest
  have hfraction := readFraction?_append hn.fraction hends hpoint
  have hwhole := whole?_append hn.whole hn.zero (endsDigits_fractionText n.fraction? hends)
  simp [read?, text, sign_append _ hn.whole, hwhole, hfraction, hexponent]

/-- A numeral begins with a minus or a digit. -/
theorem exists_text_eq_cons {n : Numeral} (hn : n.WellFormed) :
    ∃ c cs, n.text = c :: cs ∧ (c = '-' ∨ c.isDigit) := by
  obtain ⟨c, cs, hwhole⟩ := List.exists_cons_of_ne_nil hn.whole.ne_nil
  rw [text, hwhole]
  cases n.negative with
  | true => exact ⟨'-', _, rfl, .inl rfl⟩
  | false => exact ⟨c, _, rfl, .inr (hn.whole.digits c (hwhole ▸ List.mem_cons_self))⟩

/-! ## Integers -/

/-- The numeral of an integer. -/
def ofInt (k : Int) : Numeral :=
  ⟨decide (k < 0), Nat.toDigits 10 k.natAbs, none, none⟩

theorem wellFormed_ofInt (k : Int) : (ofInt k).WellFormed where
  whole := isDigits_toDigits _
  zero h := by simp [ofInt, eq_zero_of_head?_toDigits h]
  fraction := by simp [ofInt]
  exponent := by simp [ofInt]

theorem text_ofInt (k : Int) : (ofInt k).text = (toString k).toList := by
  rw [toList_toString]
  simp [ofInt, text, signText, fractionText, exponentText]

theorem integer?_ofInt (t : Int64) : (ofInt t.toInt).integer? = some t.toInt := by
  have hleast := t.le_toInt
  have hgreatest := t.toInt_lt
  have hvalue : Nat.ofDigitChars 10 (ofInt t.toInt).whole 0 = t.toInt.natAbs :=
    Nat.ofDigitChars_toDigits (by decide) (by decide)
  have hsize : Int64.size = 18446744073709551616 := rfl
  have husize : UInt64.size = 18446744073709551616 := rfl
  have hplain : ¬ ((ofInt t.toInt).fraction?.isSome ∨ (ofInt t.toInt).exponent?.isSome) := by
    simp [ofInt]
  simp only [integer?, hvalue, if_neg hplain]
  by_cases hnegative : t.toInt < 0
  · have hsign : (ofInt t.toInt).negative = true := decide_eq_true hnegative
    rw [if_pos hsign, if_pos (by omega)]
    congr 1
    omega
  · have hsign : ¬ (ofInt t.toInt).negative = true := by simpa [ofInt] using hnegative
    rw [if_neg hsign, if_pos (by omega)]
    congr 1
    omega

end Numeral

/-! ## Floating point numbers -/

namespace Decimal

structure WellFormed (d : Decimal) : Prop where
  digits : IsDigits d.digits
  /-- Only zero begins with a zero. -/
  zero : d.digits.head? = some '0' → d.digits = ['0'] ∧ d.lead = 0

theorem wellFormed_zero : (Decimal.mk ['0'] 0).WellFormed where
  digits := isDigits_toDigits 0
  zero _ := ⟨rfl, rfl⟩

theorem wellFormed_ofScaled {n : Nat} (hn : 0 < n) (exponent : Int) :
    (ofScaled n exponent).WellFormed := by
  have hdigits : (ofScaled n exponent).digits =
      (Nat.toDigits 10 n).rdropWhile (· = '0') := rfl
  have hall := isDigits_toDigits n
  have hprefix := List.rdropWhile_prefix (· = '0') (Nat.toDigits 10 n)
  have hhead : (Nat.toDigits 10 n).head? ≠ some '0' := by
    intro h
    rw [eq_zero_of_head?_toDigits h] at hn
    exact Nat.lt_irrefl 0 hn
  -- The first digit is not zero, so it is not among the dropped ones.
  have hne : (Nat.toDigits 10 n).rdropWhile (· = '0') ≠ [] := by
    obtain ⟨c, cs, hcons⟩ := List.exists_cons_of_ne_nil hall.ne_nil
    rw [ne_eq, List.rdropWhile_eq_nil_iff]
    intro hzeros
    rw [hcons, List.head?_cons, ne_eq, Option.some.injEq] at hhead
    exact hhead (of_decide_eq_true (hzeros c (hcons ▸ List.mem_cons_self)))
  have hsub := hprefix.subset
  obtain ⟨dropped, happend⟩ := hprefix
  constructor
  · rw [hdigits]
    exact hall.of_subset hne hsub
  · intro h
    rw [← happend, List.head?_append_of_ne_nil _ hne] at hhead
    exact absurd h hhead

theorem eq_of_nearest? {tie : Tie} {closed : Bool} {low num high den n : Nat}
    (h : nearest? tie closed low num high den = some n) :
    (n = num / den ∧ low ≤ num / den * den) ∨ n = num / den + 1 := by
  unfold nearest? at h
  grind

theorem pos_of_nearest? {tie : Tie} {closed : Bool} {low num high den n : Nat}
    (h : nearest? tie closed low num high den = some n) (hlow : 0 < low) : 0 < n := by
  rcases eq_of_nearest? h with ⟨rfl, hinside⟩ | rfl
  · rcases Nat.eq_zero_or_pos (num / den) with hzero | hpos
    · rw [hzero, Nat.zero_mul] at hinside
      omega
    · exact hpos
  · exact Nat.succ_pos _

theorem wellFormed_shortest {f : FloatFormat} {tie : Tie} {significand : Nat} (exponent : Int)
    (h : 0 < significand) : (shortest f tie significand exponent).WellFormed := by
  unfold shortest
  dsimp only
  generalize hfind : List.findSome? _ _ = found
  cases found with
  | none => exact wellFormed_zero
  | some d =>
      obtain ⟨length, -, hd⟩ := List.exists_of_findSome?_eq_some hfind
      obtain ⟨n, hn, rfl⟩ := Option.map_eq_some_iff.1 hd
      apply wellFormed_ofScaled
      apply pos_of_nearest? hn
      have hshift (k : Nat) : 0 < 1 <<< k := by
        rw [Nat.one_shiftLeft]
        exact Nat.two_pow_pos k
      have hscale (k : Nat) : 0 < Nat.pow 10 k := Nat.pow_pos (by decide)
      refine Nat.mul_pos ?_ (Nat.mul_pos (hshift _) (hscale _))
      split <;> omega

end Decimal

theorem Binary.exists_unpack_of_isFinite {f : FloatFormat} {x : Binary f} (h : x.isFinite) :
    ∃ negative significand exponent, x.unpack = .finite negative significand exponent := by
  unfold isFinite at h
  split at h
  case h_1 negative significand exponent hx => exact ⟨negative, significand, exponent, hx⟩
  case h_2 => simp at h

namespace Layout

variable {layout : Layout} {d : Decimal}

open Numeral in
/-- The text after its sign is that of a numeral with a fraction or an exponent. -/
def IsNumeralText (negative : Bool) (cs : List Char) : Prop :=
  ∃ n : Numeral, n.WellFormed ∧ n.text = signText negative ++ cs ∧ n.integer? = none

theorem isNumeralText_writePositional (hend : layout.integerEnd = ".0") (hd : d.WellFormed)
    (negative : Bool) : IsNumeralText negative (layout.writePositional d).toList := by
  have hzero : IsDigits ['0'] := isDigits_toDigits 0
  unfold writePositional
  split
  case isTrue hlead =>
    refine ⟨⟨negative, ['0'], some (List.replicate (-d.lead - 1).toNat '0' ++ d.digits), none⟩,
      ⟨hzero, fun _ => rfl, ?_, by simp⟩, ?_, by simp [Numeral.integer?]⟩
    · rintro ds ⟨⟩
      exact .prepend isDigit_of_mem_zeros hd.digits
    · simp [Numeral.text, Numeral.fractionText, Numeral.exponentText]
  case isFalse hlead =>
    dsimp only
    split
    case isTrue hlength =>
      refine ⟨⟨negative, d.digits ++ List.replicate (d.lead.toNat + 1 - d.digits.length) '0',
        some ['0'], none⟩, ⟨hd.digits.append isDigit_of_mem_zeros, ?_, ?_, by simp⟩, ?_,
        by simp [Numeral.integer?]⟩
      · intro hhead
        rw [List.head?_append_of_ne_nil _ hd.digits.ne_nil] at hhead
        obtain ⟨hdigits, hlead⟩ := hd.zero hhead
        simp [hdigits, hlead]
      · rintro ds ⟨⟩
        exact hzero
      · simp [Numeral.text, Numeral.fractionText, Numeral.exponentText, hend]
    case isFalse hlength =>
      refine ⟨⟨negative, d.digits.take (d.lead.toNat + 1), some (d.digits.drop (d.lead.toNat + 1)),
        none⟩, ⟨hd.digits.take (Nat.succ_pos _), ?_, ?_, by simp⟩, ?_, by simp [Numeral.integer?]⟩
      · intro hhead
        rw [List.head?_take, if_neg (Nat.succ_ne_zero _)] at hhead
        simp [(hd.zero hhead).1]
      · rintro ds ⟨⟩
        exact hd.digits.drop (Nat.not_le.1 hlength)
      · simp [Numeral.text, Numeral.fractionText, Numeral.exponentText]

theorem isNumeralText_writeScientific (hd : d.WellFormed) (negative : Bool) :
    IsNumeralText negative (writeScientific d).toList := by
  obtain ⟨c, cs, hcons⟩ := List.exists_cons_of_ne_nil hd.digits.ne_nil
  have hdigits : IsDigits (c :: cs) := hcons ▸ hd.digits
  have hfraction : (if cs = [] then "" else "." ++ String.ofList cs).toList =
      Numeral.fractionText (if cs = [] then none else some cs) := by
    split <;> simp [Numeral.fractionText]
  have hexponent : ((if d.lead < 0 then "e-" else "e+") ++ toString d.lead.natAbs).toList =
      Numeral.exponentText (some (decide (d.lead < 0), Nat.toDigits 10 d.lead.natAbs)) := by
    by_cases hlead : d.lead < 0 <;> simp [Numeral.exponentText, hlead]
  refine ⟨⟨negative, [c], if cs = [] then none else some cs,
    some (decide (d.lead < 0), Nat.toDigits 10 d.lead.natAbs)⟩, ⟨?_, ?_, ?_, ?_⟩, ?_,
    by simp [Numeral.integer?]⟩
  · exact hdigits.take Nat.one_pos
  · intro hhead
    rw [List.head?_cons, Option.some.injEq] at hhead
    rw [hhead]
  · intro ds hds
    split at hds
    case isTrue => simp at hds
    case isFalse hne =>
      obtain rfl := Option.some.inj hds
      exact hdigits.of_subset hne (List.subset_cons_self c cs)
  · rintro e ⟨⟩
    exact isDigits_toDigits _
  · simp only [writeScientific, hcons, List.take_succ_cons, List.drop_succ_cons]
    simp [Numeral.text, hfraction, ← hexponent]

theorem exists_numeral_write (hend : layout.integerEnd = ".0") {f : FloatFormat} {x : Binary f}
    (hfinite : x.isFinite) :
    ∃ n : Numeral, n.WellFormed ∧ n.text = (layout.write x).toList ∧ n.integer? = none := by
  obtain ⟨negative, significand, exponent, hx⟩ := Binary.exists_unpack_of_isFinite hfinite
  unfold write
  rw [hx]
  dsimp only
  generalize hd : (if significand = 0 then _ else _ : Decimal) = d
  have hd' : d.WellFormed := by
    rw [← hd]
    split
    · exact Decimal.wellFormed_zero
    · exact Decimal.wellFormed_shortest _ (by omega)
  have hsign : (if negative = true then "-" else "").toList = Numeral.signText negative := by
    cases negative <;> rfl
  rw [String.toList_append, hsign]
  split
  · exact isNumeralText_writePositional hend hd' negative
  · exact isNumeralText_writeScientific hd' negative

end Layout
end TemporalPattern
