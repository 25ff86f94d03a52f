import TemporalPattern.Logic.Verdict

/-!
# Formulas

Boolean formulas over a type of atoms. A formula is rendered, evaluated or changed by what is done
to its atoms; the connectives themselves are never touched by a substitution.
-/

namespace TemporalPattern

/-- A boolean formula over atoms of type `α`. -/
inductive Formula (α : Type) where
  | atom (a : α)
  | and (p q : Formula α)
  | or (p q : Formula α)
  | xor (p q : Formula α)
  | not (p : Formula α)
  deriving DecidableEq, Repr

namespace Formula

variable {α β ε : Type}

/-- The atoms from left to right, with repetitions. -/
def atoms : Formula α → List α
  | .atom a => [a]
  | .and p q | .or p q | .xor p q => p.atoms ++ q.atoms
  | .not p => p.atoms

/-- The verdict that follows from the verdicts on the atoms. -/
def evaluate (verdict : α → Verdict) : Formula α → Verdict
  | .atom a => verdict a
  | .and p q => .and (p.evaluate verdict) (q.evaluate verdict)
  | .or p q => .or (p.evaluate verdict) (q.evaluate verdict)
  | .xor p q => .xor (p.evaluate verdict) (q.evaluate verdict)
  | .not p => .not (p.evaluate verdict)

/-- Truth under an interpretation of the atoms. -/
def Holds (truth : α → Prop) : Formula α → Prop
  | .atom a => truth a
  | .and p q => p.Holds truth ∧ q.Holds truth
  | .or p q => p.Holds truth ∨ q.Holds truth
  | .xor p q => ¬ (p.Holds truth ↔ q.Holds truth)
  | .not p => ¬ p.Holds truth

/-- Replaces every atom by another one. -/
def map (f : α → β) : Formula α → Formula β
  | .atom a => .atom (f a)
  | .and p q => .and (p.map f) (q.map f)
  | .or p q => .or (p.map f) (q.map f)
  | .xor p q => .xor (p.map f) (q.map f)
  | .not p => .not (p.map f)

/-- Replaces every atom by a formula. The first atom without one, from left to right, decides the
error. The replacement may use that it is given an atom of the formula. -/
def substitute : (p : Formula α) → ((a : α) → a ∈ p.atoms → Except ε (Formula β)) →
    Except ε (Formula β)
  | .atom a, f => f a (by simp [atoms])
  | .and p q, f => do
    let p' ← p.substitute fun a h => f a (by simp [atoms, h])
    let q' ← q.substitute fun a h => f a (by simp [atoms, h])
    return .and p' q'
  | .or p q, f => do
    let p' ← p.substitute fun a h => f a (by simp [atoms, h])
    let q' ← q.substitute fun a h => f a (by simp [atoms, h])
    return .or p' q'
  | .xor p q, f => do
    let p' ← p.substitute fun a h => f a (by simp [atoms, h])
    let q' ← q.substitute fun a h => f a (by simp [atoms, h])
    return .xor p' q'
  | .not p, f => do
    let p' ← p.substitute fun a h => f a (by simpa [atoms] using h)
    return .not p'

/-- A formula and then every one of `conditions`, nested to the left. -/
def conjoin (p : Formula α) (conditions : List (Formula α)) : Formula α :=
  conditions.foldl .and p

/-- A formula or else any one of `alternatives`, nested to the left. -/
def disjoin (p : Formula α) (alternatives : List (Formula α)) : Formula α :=
  alternatives.foldl .or p

/-- The conjunction of a list, if there is anything in it. -/
def conjunction : List (Formula α) → Option (Formula α)
  | [] => none
  | p :: ps => some (p.conjoin ps)

/-- The disjunction of a list, if there is anything in it. -/
def disjunction : List (Formula α) → Option (Formula α)
  | [] => none
  | p :: ps => some (p.disjoin ps)

/-- The text of a formula: binary connectives in parentheses, a negation directly before its
operand. -/
def render (atom : α → String) : Formula α → String
  | .atom a => atom a
  | .and p q => s!"({p.render atom} AND {q.render atom})"
  | .or p q => s!"({p.render atom} OR {q.render atom})"
  | .xor p q => s!"({p.render atom} XOR {q.render atom})"
  | .not p => "NOT" ++ p.render atom

@[simp] theorem atoms_conjoin (p : Formula α) (conditions : List (Formula α)) :
    (p.conjoin conditions).atoms = p.atoms ++ conditions.flatMap atoms := by
  induction conditions generalizing p with
  | nil => simp [conjoin]
  | cons q qs ih =>
    rw [show p.conjoin (q :: qs) = (p.and q).conjoin qs from rfl, ih]
    simp [atoms]

@[simp] theorem atoms_disjoin (p : Formula α) (alternatives : List (Formula α)) :
    (p.disjoin alternatives).atoms = p.atoms ++ alternatives.flatMap atoms := by
  induction alternatives generalizing p with
  | nil => simp [disjoin]
  | cons q qs ih =>
    rw [show p.disjoin (q :: qs) = (p.or q).disjoin qs from rfl, ih]
    simp [atoms]

theorem atoms_conjunction {ps : List (Formula α)} {p : Formula α} (h : conjunction ps = some p) :
    p.atoms = ps.flatMap atoms := by
  cases ps with
  | nil => simp [conjunction] at h
  | cons q qs =>
    simp only [conjunction, Option.some.injEq] at h
    simp [← h]

theorem atoms_disjunction {ps : List (Formula α)} {p : Formula α} (h : disjunction ps = some p) :
    p.atoms = ps.flatMap atoms := by
  cases ps with
  | nil => simp [disjunction] at h
  | cons q qs =>
    simp only [disjunction, Option.some.injEq] at h
    simp [← h]

end Formula
end TemporalPattern
