import TemporalPattern.Logic.Formula

/-!
# Conjunctive normal form

A conjunction of clauses over possibly negated atoms. Clauses and literals keep the order in which
they were added and are never merged, so the two combinators are operations on lists: conjunction
appends, disjunction pairs every clause of one side with every clause of the other.
-/

namespace TemporalPattern

/-- An atom or its negation. -/
inductive Literal (α : Type) where
  | positive (a : α)
  | negative (a : α)
  deriving DecidableEq, Repr

/-- A disjunction of literals. The empty clause is false. -/
structure Clause (α : Type) where
  literals : List (Literal α)
  deriving DecidableEq, Repr

/-- A conjunction of clauses. The empty conjunction is true. -/
structure Cnf (α : Type) where
  clauses : List (Clause α)
  deriving DecidableEq, Repr

variable {α : Type}

namespace Literal

def atom : Literal α → α
  | positive a | negative a => a

def evaluate (verdict : α → Verdict) : Literal α → Verdict
  | positive a => verdict a
  | negative a => .not (verdict a)

def Holds (truth : α → Prop) : Literal α → Prop
  | positive a => truth a
  | negative a => ¬ truth a

def toFormula : Literal α → Formula α
  | positive a => .atom a
  | negative a => .not (.atom a)

def render (text : α → String) : Literal α → String
  | positive a => text a
  | negative a => "NOT" ++ text a

end Literal

namespace Clause

def size (c : Clause α) : Nat :=
  c.literals.length

def isEmpty (c : Clause α) : Bool :=
  c.literals.isEmpty

def append (c d : Clause α) : Clause α :=
  ⟨c.literals ++ d.literals⟩

def evaluate (verdict : α → Verdict) (c : Clause α) : Verdict :=
  .any (c.literals.map (·.evaluate verdict))

def Holds (truth : α → Prop) (c : Clause α) : Prop :=
  ∃ l ∈ c.literals, l.Holds truth

/-- The disjunction of the literals of a clause, if there are any. -/
def toFormula? (c : Clause α) : Option (Formula α) :=
  Formula.disjunction (c.literals.map Literal.toFormula)

def render (text : α → String) (c : Clause α) : String :=
  if c.isEmpty then "FALSE"
  else "(" ++ String.intercalate " OR " (c.literals.map (·.render text)) ++ ")"

end Clause

namespace Cnf

/-- The empty conjunction, which always holds. -/
def top : Cnf α :=
  ⟨[]⟩

/-- A single empty clause, which never holds. -/
def bottom : Cnf α :=
  ⟨[⟨[]⟩]⟩

/-- A single clause with a single literal. -/
def ofLiteral (l : Literal α) : Cnf α :=
  ⟨[⟨[l]⟩]⟩

def size (n : Cnf α) : Nat :=
  n.clauses.length

def isEmpty (n : Cnf α) : Bool :=
  n.clauses.isEmpty

/-- The clauses of the left side, then those of the right side. -/
def and (m n : Cnf α) : Cnf α :=
  ⟨m.clauses ++ n.clauses⟩

/-- One clause for every pair of clauses, the left one running slowest. -/
def or (m n : Cnf α) : Cnf α :=
  ⟨m.clauses.flatMap fun c => n.clauses.map c.append⟩

/-- The atoms from left to right, with repetitions. -/
def atoms (n : Cnf α) : List α :=
  n.clauses.flatMap fun c => c.literals.map Literal.atom

def evaluate (verdict : α → Verdict) (n : Cnf α) : Verdict :=
  .all (n.clauses.map (·.evaluate verdict))

def Holds (truth : α → Prop) (n : Cnf α) : Prop :=
  ∀ c ∈ n.clauses, c.Holds truth

/-- The conjunction of the formulas of the clauses, if there are any and each has one. -/
def toFormula? (n : Cnf α) : Option (Formula α) := do
  Formula.conjunction (← n.clauses.mapM Clause.toFormula?)

def render (text : α → String) (n : Cnf α) : String :=
  if n.isEmpty then "TRUE"
  else String.intercalate " AND " (n.clauses.map (·.render text))

end Cnf

namespace Formula

/-- The normal form of a formula, or with `false` of its negation. Negations are pushed to the atoms
and an exclusive or is split into its two cases. -/
def normalForm : Bool → Formula α → Cnf α
  | true, .atom a => .ofLiteral (.positive a)
  | false, .atom a => .ofLiteral (.negative a)
  | true, .and p q => (p.normalForm true).and (q.normalForm true)
  | false, .and p q => (p.normalForm false).or (q.normalForm false)
  | true, .or p q => (p.normalForm true).or (q.normalForm true)
  | false, .or p q => (p.normalForm false).and (q.normalForm false)
  | true, .xor p q =>
    ((p.normalForm true).and (q.normalForm false)).or ((p.normalForm false).and (q.normalForm true))
  | false, .xor p q =>
    ((p.normalForm true).and (q.normalForm true)).or ((p.normalForm false).and (q.normalForm false))
  | sign, .not p => p.normalForm !sign

/-- The conjunctive normal form of a formula. -/
def toCnf (p : Formula α) : Cnf α :=
  p.normalForm true

end Formula
end TemporalPattern
