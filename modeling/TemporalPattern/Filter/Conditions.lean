import TemporalPattern.Filter.Elaborate

/-!
# Conditions of written intervals

What the terms of a call stand for, and under which conditions: a given interval has its ends in
order, and two intervals that are combined have an instant in common.  The condition of a
combination comes before those of its operands, which keep the order in which they are written.
-/

namespace TemporalPattern

/-- The predicate that the later start of two intervals is not after their earlier stop. -/
def Interval.meet (a b : Interval) : Predicate :=
  TimePoint.compare (.aggregate .max [a.start, b.start]) .lte (.aggregate .min [a.stop, b.stop])

namespace IntervalTerm

/-- A term stands for an interval under conditions. -/
inductive Denotes (s : Scope) : IntervalTerm → Interval → List Predicate → Prop where
  | selector {name? : Option String} {name : String} (axis : Axis) (h : s.target name? = .ok name) :
      Denotes s (.selector name? axis) ⟨.selector name axis.start, .selector name axis.stop⟩ []
  | literal {start stop : TimeTerm} {p q : TimePoint} (hp : start.elaborate s = .ok p)
      (hq : stop.elaborate s = .ok q) :
      Denotes s (.literal start stop) ⟨p, q⟩ [p.compare .lte q]
  | merge {i j : IntervalTerm} {a b : Interval} {cs ds : List Predicate} (hi : Denotes s i a cs)
      (hj : Denotes s j b ds) :
      Denotes s (.merge i j)
        ⟨.aggregate .max [a.start, b.start], .aggregate .min [a.stop, b.stop]⟩
        (a.meet b :: (cs ++ ds))
  | join {i j : IntervalTerm} {a b : Interval} {cs ds : List Predicate} (hi : Denotes s i a cs)
      (hj : Denotes s j b ds) :
      Denotes s (.join i j)
        ⟨.aggregate .min [a.start, b.start], .aggregate .max [a.stop, b.stop]⟩
        (a.meet b :: (cs ++ ds))

/-- The number of given and combined intervals in a term. -/
def conditionCount : IntervalTerm → Nat
  | selector _ _ => 0
  | literal _ _ => 1
  | merge i j | join i j => 1 + (i.conditionCount + j.conditionCount)

end IntervalTerm

namespace ArgumentTerm

/-- A term stands for an argument, which has no conditions itself, under conditions. -/
inductive Denotes (s : Scope) : ArgumentTerm → Argument → List Predicate → Prop where
  | interval {i : IntervalTerm} {a : Interval} {cs : List Predicate} (h : i.Denotes s a cs) :
      Denotes s (.interval i) (.interval (.free a)) cs
  | timestamp {t : TimeTerm} {p : TimePoint} (h : t.elaborate s = .ok p) :
      Denotes s (.timestamp t) (.timestamp p) []
  | length {l : LengthTerm} {length : Millis} (h : l.elaborate = .ok length) :
      Denotes s (.length l) (.constant length) []

/-- Terms stand for arguments one by one, under the conditions of all of them in order. -/
inductive DenoteEach (s : Scope) : List ArgumentTerm → List Argument → List Predicate → Prop where
  | nil : DenoteEach s [] [] []
  | cons {t : ArgumentTerm} {ts : List ArgumentTerm} {a : Argument} {args : List Argument}
      {cs ds : List Predicate} (h : Denotes s t a cs) (hs : DenoteEach s ts args ds) :
      DenoteEach s (t :: ts) (a :: args) (cs ++ ds)

/-- The number of given and combined intervals in a term. -/
def conditionCount : ArgumentTerm → Nat
  | interval i => i.conditionCount
  | timestamp _ | length _ => 0

/-- The number of given and combined intervals in a list of terms. -/
def conditionCountEach : List ArgumentTerm → Nat
  | [] => 0
  | t :: ts => t.conditionCount + conditionCountEach ts

end ArgumentTerm
end TemporalPattern
