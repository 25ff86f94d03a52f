import TemporalPattern.Comparison.Unfold
import TemporalPattern.Comparison.Verdict

/-!
# Predicates

Formulas over comparisons and their normal forms: the variables in them, static verdicts, text, and
the two steps that come before the conversion to conjunctive normal form.
-/

namespace TemporalPattern

/-- The pattern variables of a term in the order of their first occurrence. -/
def TimePoint.variableNames (p : TimePoint) : List String :=
  p.mentions.eraseDups

/-- The pattern variables of an operand in the order of their first occurrence. -/
def Operand.variableNames (operand : Operand) : List String :=
  operand.mentions.eraseDups

/-- The pattern variables of a comparison in the order of their first occurrence. -/
def Comparison.variableNames (c : Comparison) : List String :=
  c.mentions.eraseDups

namespace Predicate

/-- The pattern variables in the order of their first occurrence. -/
def variableNames (p : Predicate) : List String :=
  (p.atoms.flatMap Comparison.mentions).eraseDups

def values (p : Predicate) : List Value :=
  p.atoms.flatMap Comparison.values

def isTemporal (p : Predicate) : Bool :=
  p.atoms.any Comparison.isTemporal

def isGlobal (p : Predicate) : Bool :=
  p.atoms.any Comparison.isGlobal

/-- Switches the operands of every comparison. -/
def switch (p : Predicate) : Predicate :=
  p.map Comparison.switch

/-- Replaces every selector of the whole pattern. -/
def resolve (names : List String) (p : Predicate) : Except Error Predicate :=
  p.substitute fun c _ => do return .atom (← c.resolve names)

/-- The verdict without any data. -/
def evaluate (p : Predicate) : Verdict :=
  Formula.evaluate Comparison.evaluate p

def render (p : Predicate) : String :=
  Formula.render Comparison.render p

/-- Resolves the selectors of the whole pattern, if there are any, and then unfolds aggregates, if
there are any time points. -/
def normalize (names : List String) (p : Predicate) : Except Error Predicate := do
  let p : Predicate ← if isGlobal p then resolve names p else .ok p
  if isTemporal p then unfoldAggregates p else return p

end Predicate

/-- A conjunctive normal form over comparisons. -/
abbrev NormalForm := Cnf Comparison

namespace NormalForm

/-- The pattern variables in the order of their first occurrence. -/
def variableNames (n : NormalForm) : List String :=
  (n.atoms.flatMap Comparison.mentions).eraseDups

def values (n : NormalForm) : List Value :=
  n.atoms.flatMap Comparison.values

def isTemporal (n : NormalForm) : Bool :=
  n.atoms.any Comparison.isTemporal

/-- The verdict without any data. -/
def evaluate (n : NormalForm) : Verdict :=
  Cnf.evaluate Comparison.evaluate n

def render (n : NormalForm) : String :=
  Cnf.render Comparison.render n

end NormalForm
end TemporalPattern
