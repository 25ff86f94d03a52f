import Mathlib.Logic.Relation
import TemporalPattern.Logic.Cnf

/-!
# Rearranged normal forms

Normal forms that differ only in the order of clauses and literals and in how often each is
written.
-/

namespace TemporalPattern

namespace Cnf

variable {α : Type}

/-- A step of rearranging: the clauses, or the literals of the first clause, are put in another
order, or one of them is written once more. -/
inductive Rearranges : Cnf α → Cnf α → Prop where
  | clauses {cs ds : List (Clause α)} (h : cs.Perm ds) : Rearranges ⟨cs⟩ ⟨ds⟩
  | repeatClause {cs : List (Clause α)} {c : Clause α} (h : c ∈ cs) : Rearranges ⟨cs⟩ ⟨c :: cs⟩
  | literals {ls ms : List (Literal α)} (h : ls.Perm ms) (cs : List (Clause α)) :
      Rearranges ⟨⟨ls⟩ :: cs⟩ ⟨⟨ms⟩ :: cs⟩
  | repeatLiteral {ls : List (Literal α)} {l : Literal α} (h : l ∈ ls) (cs : List (Clause α)) :
      Rearranges ⟨⟨ls⟩ :: cs⟩ ⟨⟨l :: ls⟩ :: cs⟩

/-- Any number of steps of rearranging, forwards and backwards. -/
def Rearranged : Cnf α → Cnf α → Prop :=
  Relation.EqvGen Rearranges

end Cnf
end TemporalPattern
