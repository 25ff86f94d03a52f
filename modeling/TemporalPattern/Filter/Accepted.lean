import TemporalPattern.Filter.Basic
import TemporalPattern.Interval.Relation

/-!
# Acceptable filters

When a filter makes sense in a pattern, said part by part and without elaborating it: names are
declared, texts can be read, lengths fit, aggregates have arguments, and functions exist and get
arguments they accept.
-/

namespace TemporalPattern

/-- What an argument is. -/
inductive ArgumentKind where
  | interval
  | timestamp
  | constant
  deriving DecidableEq, Repr

/-- The lists of arguments that a shape describes. -/
def ArgumentShape.kinds : ArgumentShape → List (List ArgumentKind)
  | interval => [[.interval]]
  | timestamp => [[.timestamp]]
  | twoTimestamps => [[.timestamp, .timestamp]]
  | intervalOrTimestamp => [[.interval], [.timestamp]]
  | intervalOrConstant => [[.interval], [.constant]]

namespace TimeTerm

mutual

def Accepted (names : List String) : TimeTerm → Prop
  | literal text => ∃ moment, Moment.parse text = .ok moment
  | selector name? _ => ∀ name ∈ name?, name ∈ names
  | aggregate _ args => args ≠ [] ∧ AcceptedEach names args

def AcceptedEach (names : List String) : List TimeTerm → Prop
  | [] => True
  | t :: ts => t.Accepted names ∧ AcceptedEach names ts

end

mutual

/-- The names written in a term. -/
def names : TimeTerm → List String
  | literal _ => []
  | selector name? _ => name?.toList
  | aggregate _ args => namesEach args

def namesEach : List TimeTerm → List String
  | [] => []
  | t :: ts => t.names ++ namesEach ts

end

theorem acceptedEach_iff {names : List String} {ts : List TimeTerm} :
    AcceptedEach names ts ↔ ∀ t ∈ ts, t.Accepted names := by
  induction ts with
  | nil => simp [AcceptedEach]
  | cons t ts ih => simp [AcceptedEach, ih]

theorem namesEach_eq (ts : List TimeTerm) : namesEach ts = ts.flatMap names := by
  induction ts with
  | nil => rfl
  | cons t ts ih => simp [namesEach, ih]

end TimeTerm

namespace IntervalTerm

def Accepted (names : List String) : IntervalTerm → Prop
  | selector name? _ => ∀ name ∈ name?, name ∈ names
  | literal start stop => start.Accepted names ∧ stop.Accepted names
  | merge i j | join i j => i.Accepted names ∧ j.Accepted names

/-- The names written in a term. -/
def names : IntervalTerm → List String
  | selector name? _ => name?.toList
  | literal start stop => start.names ++ stop.names
  | merge i j | join i j => i.names ++ j.names

end IntervalTerm

def LengthTerm.Accepted : LengthTerm → Prop
  | unit name amount =>
    ∃ unit, TimeUnit.ofName name = .ok unit ∧ 0 ≤ amount.toInt ∧
      amount.toInt * unit.size.toInt ≤ Millis.greatest
  | components c => c.InRange ∧ c.total ≤ Millis.greatest

namespace ArgumentTerm

def kind : ArgumentTerm → ArgumentKind
  | interval _ => .interval
  | timestamp _ => .timestamp
  | length _ => .constant

def Accepted (names : List String) : ArgumentTerm → Prop
  | interval i => i.Accepted names
  | timestamp t => t.Accepted names
  | length l => l.Accepted

/-- The names written in a term. -/
def names : ArgumentTerm → List String
  | interval i => i.names
  | timestamp t => t.names
  | length _ => []

end ArgumentTerm

namespace OperandTerm

def Accepted (names : List String) : OperandTerm → Prop
  | value _ => True
  | element name | property name _ => name ∈ names
  | timestamp t => t.Accepted names

/-- The names written in a term. -/
def names : OperandTerm → List String
  | value _ => []
  | element name | property name _ => [name]
  | timestamp t => t.names

end OperandTerm

namespace Filter

def Accepted (names : List String) : Filter → Prop
  | and f g | or f g | xor f g => f.Accepted names ∧ g.Accepted names
  | not f => f.Accepted names
  | comparison lhs op rhs =>
    lhs.Accepted names ∧ Text.trim op ∈ ["=", "!=", "<>", ">", "<", ">=", "<="] ∧
      rhs.Accepted names
  | intervalCall caller function args =>
    (∃ relation : IntervalRelation, relation.name = function ∧
      args.map ArgumentTerm.kind ∈ relation.expected.kinds) ∧
    caller.Accepted names ∧ ∀ arg ∈ args, arg.Accepted names
  | timestampCall caller function args =>
    (∃ relation : TimestampRelation, relation.name = function ∧
      args.map ArgumentTerm.kind ∈ relation.expected.kinds) ∧
    caller.Accepted names ∧ ∀ arg ∈ args, arg.Accepted names
  | asOf name? time => (∀ name ∈ name?, name ∈ names) ∧ time.Accepted names

/-- The names written in a filter. -/
def names : Filter → List String
  | and f g | or f g | xor f g => f.names ++ g.names
  | not f => f.names
  | comparison lhs _ rhs => lhs.names ++ rhs.names
  | intervalCall caller _ args => caller.names ++ args.flatMap ArgumentTerm.names
  | timestampCall caller _ args => caller.names ++ args.flatMap ArgumentTerm.names
  | asOf name? time => name?.toList ++ time.names

end Filter
end TemporalPattern
