import TemporalPattern.Filter.Basic
import TemporalPattern.Interval.Relation

/-!
# Compiling filters

Elaboration checks a written filter against the names of its pattern and gives the predicate it
stands for; compilation goes on to the conjunctive normal form. Terms are checked from left to
right, a call by its function first, and the first fault decides the error.
-/

namespace TemporalPattern

/-- What a filter is read against: the variables of its pattern in the order of declaration, and
the current instant. The clock stands still while a filter is read: one instant is meant by every
`now` in it, though a clock that runs may give a later one to the next `now`. Two filters, or one
filter in two patterns, are therefore compared as read at the same instant. -/
structure Scope where
  names : List String
  now : Millis

namespace Scope

/-- The scope of a pattern whose elements have the given names, some perhaps more than once. -/
def ofNames (names : List String) (now : Millis) : Scope :=
  ⟨names.eraseDups, now⟩

def lookup (s : Scope) (name : String) : Except Error String :=
  if name ∈ s.names then .ok name else .error (.unresolvedVariable name)

/-- The variable of a term, where no name means the whole pattern. -/
def target (s : Scope) : Option String → Except Error String
  | some name => s.lookup name
  | none => .ok globalVariable

end Scope

namespace TimeTerm

mutual

def elaborate (s : Scope) : TimeTerm → Except Error TimePoint
  | literal text => do
    let moment ← Error.ofTime (Moment.parse text)
    return .literal (moment.time s.now)
  | selector name? field => do return .selector (← s.target name?) field
  | aggregate choice args => do choice.of (← elaborateEach s args)

def elaborateEach (s : Scope) : List TimeTerm → Except Error (List TimePoint)
  | [] => .ok []
  | t :: ts => do
    let p ← t.elaborate s
    let ps ← elaborateEach s ts
    return p :: ps

end

theorem elaborateEach_eq (s : Scope) (ts : List TimeTerm) :
    elaborateEach s ts = ts.mapM (elaborate s) := by
  induction ts with
  | nil => rfl
  | cons t ts ih => simp [elaborateEach, ih]

end TimeTerm

namespace IntervalTerm

def elaborate (s : Scope) : IntervalTerm → Except Error (Constrained Interval)
  | selector name? axis => do return .free (.ofElement (← s.target name?) axis)
  | literal start stop => do
    let p ← start.elaborate s
    let q ← stop.elaborate s
    return Interval.literal p q
  | merge i j => do
    let a ← i.elaborate s
    let b ← j.elaborate s
    return Interval.merge a b
  | join i j => do
    let a ← i.elaborate s
    let b ← j.elaborate s
    return Interval.join a b

end IntervalTerm

namespace LengthTerm

def elaborate : LengthTerm → Except Error Millis
  | unit name amount => do
    let unit ← Error.ofTime (TimeUnit.ofName name)
    Error.ofTime (unit.duration amount)
  | components c => Error.ofTime c.duration

end LengthTerm

namespace ArgumentTerm

def elaborate (s : Scope) : ArgumentTerm → Except Error Argument
  | interval i => do return .interval (← i.elaborate s)
  | timestamp t => do return .timestamp (← t.elaborate s)
  | length l => do return .constant (← l.elaborate)

end ArgumentTerm

namespace OperandTerm

def elaborate (s : Scope) : OperandTerm → Except Error Operand
  | value v => .ok (.value v)
  | element name => do return .element (← s.lookup name)
  | property name key => do return .property (← s.lookup name) key
  | timestamp t => do return .time (← t.elaborate s)

end OperandTerm

namespace Filter

/-- The predicate a filter stands for, before selectors are resolved and aggregates unfolded. -/
def elaborate (s : Scope) : Filter → Except Error Predicate
  | and f g => do
    let p ← f.elaborate s
    let q ← g.elaborate s
    return .and p q
  | or f g => do
    let p ← f.elaborate s
    let q ← g.elaborate s
    return .or p q
  | xor f g => do
    let p ← f.elaborate s
    let q ← g.elaborate s
    return .xor p q
  | not f => do
    let p ← f.elaborate s
    return .not p
  | comparison lhs op rhs => do
    let lhs ← lhs.elaborate s
    let op ← Comparator.parse op
    let rhs ← rhs.elaborate s
    return .atom ⟨lhs, op, rhs⟩
  | intervalCall caller function args => do
    let relation ← IntervalRelation.ofName function
    let caller ← caller.elaborate s
    let args ← args.mapM (ArgumentTerm.elaborate s)
    relation.apply caller args
  | timestampCall caller function args => do
    let relation ← TimestampRelation.ofName function
    let caller ← caller.elaborate s
    let args ← args.mapM (ArgumentTerm.elaborate s)
    relation.apply caller args
  | asOf name? time => do
    let name? ← name?.mapM s.lookup
    let p ← time.elaborate s
    return Predicate.asOf name? p

/-- The conjunctive normal form of a filter. -/
def compile (s : Scope) (f : Filter) : Except Error NormalForm := do
  let p ← f.elaborate s
  let p ← Predicate.normalize s.names p
  return p.toCnf

end Filter
end TemporalPattern
