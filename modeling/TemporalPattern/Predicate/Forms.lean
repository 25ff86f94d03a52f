import TemporalPattern.Comparison.Valuation

/-!
# Forms of predicates

What unfolding and normalization leave of a predicate, said without either of them: where an empty
aggregate stands in the way, what an unfolding of a predicate is, and when there is nothing left to
normalize.
-/

namespace TemporalPattern

universe u

namespace Operand

def isAggregate : Operand → Bool
  | time p => p.isAggregate
  | _ => false

/-- An aggregate without arguments is the operand itself or is reached from it through the arguments
of aggregates only. -/
def ReachesEmpty : Operand → Prop
  | time p => p.ReachesEmpty
  | _ => False

end Operand

namespace Comparison

/-- An aggregate without arguments is reached from one of the operands. -/
def ReachesEmpty (c : Comparison) : Prop :=
  c.lhs.ReachesEmpty ∨ c.rhs.ReachesEmpty

/-- No selector of the whole pattern occurs in the comparison, however deep, and neither operand is
an aggregate. Lengths and shifted points may still be of aggregates. -/
structure IsNormalized (c : Comparison) : Prop where
  isLocal : ¬ c.isGlobal
  lhs : c.lhs.isAggregate = false
  rhs : c.rhs.isAggregate = false

end Comparison

namespace Predicate

/-- An aggregate without arguments is reached from an operand of some comparison. -/
def ReachesEmpty (p : Predicate) : Prop :=
  ∃ c ∈ p.atoms, c.ReachesEmpty

/-- The predicate `q` says what `p` says, of the same variables and without comparing aggregates. -/
structure IsUnfolding (p q : Predicate) : Prop where
  atomic : ∀ c ∈ q.atoms, c.lhs.isAggregate = false ∧ c.rhs.isAggregate = false
  sameNames : ∀ name, name ∈ variableNames q ↔ name ∈ variableNames p
  sameMeaning : ∀ {D : Type u} [LinearOrder D] (v : Valuation D),
    q.Holds v.Satisfies ↔ p.Holds v.Satisfies

def IsNormalized (p : Predicate) : Prop :=
  ∀ c ∈ p.atoms, c.IsNormalized

end Predicate
end TemporalPattern
