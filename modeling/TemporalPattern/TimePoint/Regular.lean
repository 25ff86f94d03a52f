import TemporalPattern.TimePoint.Bounds
import TemporalPattern.TimePoint.Timeline

/-!
# Regular and closed terms

The terms whose bounds can be trusted. Two things can put a bound on the wrong side of a value. A
known lower bound is brought back into a word, so it is too high for a value below all words. And
whether the start of a length may be negative is told without looking at shifts, though a shift may
go back before the epoch. A regular term has neither in any part of it; a closed term has no
selectors either, and both its bounds are its value.
-/

namespace TemporalPattern

/-- Whether a number is a word other than the largest one, which is not used as an upper bound. -/
def Millis.BelowGreatest (n : Int) : Prop :=
  least ≤ n ∧ n < greatest

instance : DecidablePred Millis.BelowGreatest :=
  fun n => inferInstanceAs (Decidable (Millis.least ≤ n ∧ n < Millis.greatest))

namespace TimePoint

/-- Where a lower bound of a length or of a shifted point is known, the value is not below all
words; and where an upper bound of a length is known though no lower one of its start is, the start
is not negative. -/
inductive Regular (t : Timeline) : TimePoint → Prop where
  | literal (time : Millis) : Regular t (literal time)
  | selector (name : String) (field : TimeField) : Regular t (selector name field)
  | constant (length : Millis) : Regular t (constant length)
  | duration {start stop : TimePoint} (hstart : Regular t start) (hstop : Regular t stop)
      (hleast : (duration start stop).bounds.lower.isSome →
        Millis.least ≤ (duration start stop).value t)
      (hsign : (duration start stop).bounds.upper.isSome → start.bounds.lower = none →
        0 ≤ start.value t) :
      Regular t (duration start stop)
  | plus {point : TimePoint} (length : Millis) (hpoint : Regular t point)
      (hleast : (plus point length).bounds.lower.isSome →
        Millis.least ≤ (plus point length).value t) :
      Regular t (plus point length)
  | aggregate (choice : Aggregate) {args : List TimePoint} (hargs : ∀ p ∈ args, Regular t p) :
      Regular t (aggregate choice args)

/-- A term without selectors in which every aggregate has an argument and every part has a value
that is a word below the largest one. The value is the same on all data. -/
inductive IsClosed : TimePoint → Prop where
  | literal {time : Millis} (hfits : Millis.BelowGreatest time.toInt) : IsClosed (literal time)
  | constant {length : Millis} (hfits : Millis.BelowGreatest length.toInt) :
      IsClosed (constant length)
  | duration {start stop : TimePoint} (hstart : IsClosed start) (hstop : IsClosed stop)
      (hfits : Millis.BelowGreatest ((duration start stop).value .epoch)) :
      IsClosed (duration start stop)
  | plus {point : TimePoint} {length : Millis} (hpoint : IsClosed point)
      (hfits : Millis.BelowGreatest ((plus point length).value .epoch)) :
      IsClosed (plus point length)
  -- what is chosen is the value of an argument, so it needs no condition of its own
  | aggregate (choice : Aggregate) {args : List TimePoint} (hne : args ≠ [])
      (hargs : ∀ p ∈ args, IsClosed p) : IsClosed (aggregate choice args)

end TimePoint
end TemporalPattern
