import TemporalPattern.TimePoint.Basic

/-!
# Timelines

What time points mean once the data is known. A timeline gives every time field an instant.
Instants and lengths are integers here, so nothing overflows.
-/

namespace TemporalPattern

/-- The instants of the time fields of all variables. -/
abbrev Timeline := String → TimeField → Int

/-- The latest or the earliest of some instants, zero if there are none. -/
def Aggregate.choose : Aggregate → List Int → Int
  | max, times => times.max?.getD 0
  | min, times => times.min?.getD 0

namespace Timeline

/-- The data on which every time field is at the epoch. -/
def epoch : Timeline :=
  fun _ _ => 0

/-- Whether every instant is a 64-bit number that is not negative. -/
def FromEpoch (t : Timeline) : Prop :=
  ∀ name field, 0 ≤ t name field ∧ t name field ≤ Millis.greatest

/-- The timeline on which the whole pattern starts at the latest start of the given variables and
stops at their earliest stop. -/
def ofPattern (names : List String) (t : Timeline) : Timeline := fun name field =>
  if name = globalVariable then
    match field.endpoint with
    | .start => Aggregate.choose .max (names.map (t · field))
    | .stop => Aggregate.choose .min (names.map (t · field))
  else t name field

end Timeline

namespace TimePoint

mutual

/-- The instant or the length that a term stands for. -/
def value (t : Timeline) : TimePoint → Int
  | literal time => time.toInt
  | selector name field => t name field
  | constant length => length.toInt
  | duration start stop => stop.value t - start.value t
  | plus point length => point.value t + length.toInt
  | aggregate choice args => choice.choose (valueEach t args)

def valueEach (t : Timeline) : List TimePoint → List Int
  | [] => []
  | p :: ps => p.value t :: valueEach t ps

end

mutual

/-- Whether every aggregate in a term has an argument, so that its value means something. -/
def Defined : TimePoint → Prop
  | literal _ | selector _ _ | constant _ => True
  | duration start stop => start.Defined ∧ stop.Defined
  | plus point _ => point.Defined
  | aggregate _ args => args ≠ [] ∧ DefinedEach args

def DefinedEach : List TimePoint → Prop
  | [] => True
  | p :: ps => p.Defined ∧ DefinedEach ps

end

/-- An aggregate without arguments is the term itself or is reached from it through the arguments of
aggregates only. -/
inductive ReachesEmpty : TimePoint → Prop where
  | empty (choice : Aggregate) : ReachesEmpty (aggregate choice [])
  | through {choice : Aggregate} {args : List TimePoint} {p : TimePoint} (h : p ∈ args)
      (hp : ReachesEmpty p) : ReachesEmpty (aggregate choice args)

theorem valueEach_eq (t : Timeline) (ps : List TimePoint) : valueEach t ps = ps.map (value t) := by
  induction ps with
  | nil => rfl
  | cons p ps ih => simp [valueEach, ih]

end TimePoint
end TemporalPattern
