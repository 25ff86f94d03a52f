import TemporalPattern.TimePoint.Basic

/-!
# Bounds of time points

What is known about the value of a term before its selectors are known. Selectors are never
negative, but that alone counts as no known lower bound; it only enters the upper bound of a
duration.
-/

namespace TemporalPattern

/-- The known bounds of a value. The largest instant is not used as an upper bound: it stands for
having none. -/
structure Bounds where
  lower : Option Millis
  upper : Option Millis
  deriving DecidableEq, Repr

namespace Bounds

/-- A time as an upper bound. -/
def finite? (time : Millis) : Option Millis :=
  if time = Int64.maxValue then none else some time

/-- Bounds whose lower one has to stay below the upper one. -/
def capped (lower upper : Option Millis) : Bounds where
  lower := match lower, upper with
    | some l, some u => some (min l u)
    | l, _ => l
  upper := upper

def unknown : Bounds :=
  ⟨none, none⟩

def exact (time : Millis) : Bounds :=
  capped (some time) (finite? time)

/-- The bounds of the length from `start` to `stop`. A start without a known lower bound counts as
not before zero unless it may be negative. -/
def difference (startMayBeNegative : Bool) (start stop : Bounds) : Bounds :=
  let lower := do return Millis.clamp ((← stop.lower).toInt - (← start.upper).toInt)
  let earliest := start.lower <|> if startMayBeNegative then none else some 0
  let upper := do finite? (← Millis.ofInt? ((← stop.upper).toInt - (← earliest).toInt))
  capped lower upper

/-- The bounds of a point `length` later. -/
def shift (length : Millis) (b : Bounds) : Bounds :=
  let later (time : Millis) := Millis.clamp (time.toInt + length.toInt)
  capped (b.lower.map later) (b.upper.bind fun time => finite? (later time))

/-- The bounds of the latest of several values: a lower bound of any of them holds, an upper bound
needs one of each. -/
def latest (each : List Bounds) : Bounds :=
  capped (each.filterMap lower).max? ((each.mapM upper).bind List.max?)

/-- The bounds of the earliest of several values. -/
def earliest (each : List Bounds) : Bounds :=
  capped ((each.mapM lower).bind List.min?) (each.filterMap upper).min?

end Bounds

def Aggregate.bounds : Aggregate → List Bounds → Bounds
  | max => Bounds.latest
  | min => Bounds.earliest

namespace TimePoint

mutual

/-- Whether a term can have a negative value though no selector has one. Shifting is not looked
at. -/
def mayBeNegative : TimePoint → Bool
  | literal time => time < 0
  | constant length => length < 0
  | selector _ _ => false
  | duration _ _ => true
  | plus point _ => point.mayBeNegative
  | aggregate _ args => mayBeNegativeSome args

def mayBeNegativeSome : List TimePoint → Bool
  | [] => false
  | p :: ps => p.mayBeNegative || mayBeNegativeSome ps

end

mutual

def bounds : TimePoint → Bounds
  | literal time => .exact time
  | selector _ _ => .unknown
  | constant length => .exact length
  | duration start stop => .difference start.mayBeNegative start.bounds stop.bounds
  | plus point length => .shift length point.bounds
  | aggregate choice args => choice.bounds (boundsEach args)

def boundsEach : List TimePoint → List Bounds
  | [] => []
  | p :: ps => p.bounds :: boundsEach ps

end

/-- The lower bound, if it follows from known values. -/
def knownLowerBound (p : TimePoint) : Option Millis :=
  p.bounds.lower

/-- The upper bound, or the largest instant. -/
def upperBound (p : TimePoint) : Millis :=
  p.bounds.upper.getD Int64.maxValue

/-- The lower bound, or zero if that is not above the upper bound. -/
def lowerBound (p : TimePoint) : Millis :=
  min (p.knownLowerBound.getD 0) p.upperBound

theorem mayBeNegativeSome_eq (ps : List TimePoint) :
    mayBeNegativeSome ps = ps.any mayBeNegative := by
  induction ps with
  | nil => rfl
  | cons p ps ih => simp [mayBeNegativeSome, ih]

theorem boundsEach_eq (ps : List TimePoint) : boundsEach ps = ps.map bounds := by
  induction ps with
  | nil => rfl
  | cons p ps ih => simp [boundsEach, ih]

end TimePoint
end TemporalPattern
