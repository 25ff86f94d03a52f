/-!
# Three-valued verdicts

The verdict on a statement before its data is known: true, false, or still open. The connectives
are the strong Kleene ones, so a decided operand settles the result wherever it can.
-/

namespace TemporalPattern

/-- What is known about a statement; `none` leaves it to the data. -/
abbrev Verdict := Option Bool

namespace Verdict

def not : Verdict → Verdict
  | some b => some !b
  | none => none

/-- One false side decides. -/
def and : Verdict → Verdict → Verdict
  | some false, _ => some false
  | _, some false => some false
  | some true, some true => some true
  | _, _ => none

/-- One true side decides. -/
def or : Verdict → Verdict → Verdict
  | some true, _ => some true
  | _, some true => some true
  | some false, some false => some false
  | _, _ => none

/-- Both sides are needed. -/
def xor : Verdict → Verdict → Verdict
  | some a, some b => some (a != b)
  | _, _ => none

/-- The verdict that all of a list hold. -/
def all (verdicts : List Verdict) : Verdict :=
  verdicts.foldr and (some true)

/-- The verdict that one of a list holds. -/
def any (verdicts : List Verdict) : Verdict :=
  verdicts.foldr or (some false)

/-- If both are decided, they are the same. -/
def Agree (v w : Verdict) : Prop :=
  ∀ b, v = some b → w ≠ some !b

/-- A decided verdict is the truth. -/
def IsRight (verdict : Verdict) (truth : Prop) : Prop :=
  ∀ b, verdict = some b → (truth ↔ b = true)

open Classical in
/-- The verdict that leaves nothing open. -/
noncomputable def ofTruth (truth : Prop) : Verdict :=
  some (decide truth)

@[simp] theorem all_nil : all [] = some true := rfl

@[simp] theorem all_cons (v : Verdict) (vs : List Verdict) : all (v :: vs) = and v (all vs) := rfl

@[simp] theorem any_nil : any [] = some false := rfl

@[simp] theorem any_cons (v : Verdict) (vs : List Verdict) : any (v :: vs) = or v (any vs) := rfl

@[simp] theorem not_not (v : Verdict) : not (not v) = v := by
  cases v <;> simp [not]

theorem not_and (v w : Verdict) : not (and v w) = or (not v) (not w) := by
  rcases v with _ | ⟨_ | _⟩ <;> rcases w with _ | ⟨_ | _⟩ <;> rfl

theorem not_or (v w : Verdict) : not (or v w) = and (not v) (not w) := by
  rcases v with _ | ⟨_ | _⟩ <;> rcases w with _ | ⟨_ | _⟩ <;> rfl

theorem xor_eq (v w : Verdict) : xor v w = or (and v (not w)) (and (not v) w) := by
  rcases v with _ | ⟨_ | _⟩ <;> rcases w with _ | ⟨_ | _⟩ <;> rfl

end Verdict
end TemporalPattern
