import TemporalPattern.Element
import TemporalPattern.Filter.Elaborate

/-!
# Queries

A query is a pattern with an optional filter. Its normal form holds what the elements imply, in the
order of their declaration, and then the filter.
-/

namespace TemporalPattern

structure Query where
  elements : List Element
  filter? : Option Filter := none

namespace Query

/-- What the elements imply. -/
def implied (s : Settings) (q : Query) : NormalForm :=
  (q.elements.map (·.normalForm s)).foldl Cnf.and .top

def scope (q : Query) (now : Millis) : Scope :=
  .ofNames (q.elements.map (·.name)) now

def compile (s : Settings) (now : Millis) (q : Query) : Except Error NormalForm :=
  match q.filter? with
  | some f => do return (q.implied s).and (← f.compile (q.scope now))
  | none => .ok (q.implied s)

end Query
end TemporalPattern
