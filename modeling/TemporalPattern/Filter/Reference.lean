import TemporalPattern.Filter.Basic
import TemporalPattern.Predicate

/-!
# References

What filters and predicates refer to. In a filter a time or an interval without a name belongs to
the whole pattern; in a predicate the reserved name stands for it.
-/

namespace TemporalPattern

inductive Reference where
  /-- An element itself or one of its properties. -/
  | element (name : String)
  /-- A time of an element. -/
  | time (name : String)
  /-- A time of the whole pattern. -/
  | pattern
  deriving DecidableEq, Repr

namespace Reference

/-- What the selector of a predicate refers to. -/
def ofSelector (name : String) : Reference :=
  if name = globalVariable then pattern else time name

/-- What a selector of a filter refers to as it is written. -/
def ofWritten : Option String → Reference
  | some name => time name
  | none => pattern

/-- What becomes of a written reference in a predicate: the reserved name is taken for the whole
pattern. -/
def encoded : Reference → Reference
  | time name => ofSelector name
  | r => r

def name? : Reference → Option String
  | element name | time name => some name
  | pattern => none

end Reference

/-! ## In predicates -/

def TimePoint.references (p : TimePoint) : List Reference :=
  p.selectors.map fun s => .ofSelector s.1

def Operand.references : Operand → List Reference
  | value _ => []
  | element name | property name _ => [.element name]
  | time point => point.references

def Comparison.references (c : Comparison) : List Reference :=
  c.lhs.references ++ c.rhs.references

def Predicate.references (p : Predicate) : List Reference :=
  p.atoms.flatMap Comparison.references

/-! ## In filters -/

namespace TimeTerm

mutual

def references : TimeTerm → List Reference
  | literal _ => []
  | selector name? _ => [.ofWritten name?]
  | aggregate _ args => referencesEach args

def referencesEach : List TimeTerm → List Reference
  | [] => []
  | t :: ts => t.references ++ referencesEach ts

end

theorem referencesEach_eq (ts : List TimeTerm) : referencesEach ts = ts.flatMap references := by
  induction ts with
  | nil => rfl
  | cons t ts ih => simp [referencesEach, ih]

end TimeTerm

def IntervalTerm.references : IntervalTerm → List Reference
  | selector name? _ => [.ofWritten name?]
  | literal start stop => start.references ++ stop.references
  | merge i j | join i j => i.references ++ j.references

def ArgumentTerm.references : ArgumentTerm → List Reference
  | interval i => i.references
  | timestamp t => t.references
  | length _ => []

def OperandTerm.references : OperandTerm → List Reference
  | value _ => []
  | element name | property name _ => [.element name]
  | timestamp t => t.references

def Filter.references : Filter → List Reference
  | and f g | or f g | xor f g => f.references ++ g.references
  | not f => f.references
  | comparison lhs _ rhs => lhs.references ++ rhs.references
  | intervalCall caller _ args => caller.references ++ args.flatMap ArgumentTerm.references
  | timestampCall caller _ args => caller.references ++ args.flatMap ArgumentTerm.references
  | asOf name? time => .ofWritten name? :: time.references

end TemporalPattern
