import TemporalPattern.Error
import TemporalPattern.Text.Blank

/-!
# Comparators

The six comparison operators. `inverse` negates an operator, `converse` is the one to use with the
operands the other way round.
-/

namespace TemporalPattern

inductive Comparator where
  | eq
  | neq
  | gt
  | lt
  | gte
  | lte
  deriving DecidableEq, Repr

namespace Comparator

def inverse : Comparator → Comparator
  | eq => neq
  | neq => eq
  | gt => lte
  | lte => gt
  | lt => gte
  | gte => lt

def converse : Comparator → Comparator
  | eq => eq
  | neq => neq
  | gt => lt
  | lt => gt
  | gte => lte
  | lte => gte

/-- Whether operands in the given order satisfy the operator. -/
def holds : Comparator → Ordering → Bool
  | eq, order => order.isEq
  | neq, order => order.isNe
  | gt, order => order.isGT
  | lt, order => order.isLT
  | gte, order => order.isGE
  | lte, order => order.isLE

def symbol : Comparator → String
  | eq => "="
  | neq => "!="
  | gt => ">"
  | lt => "<"
  | gte => ">="
  | lte => "<="

def ofSymbol? : String → Option Comparator
  | "=" => some eq
  | "!=" | "<>" => some neq
  | ">" => some gt
  | "<" => some lt
  | ">=" => some gte
  | "<=" => some lte
  | _ => none

/-- Reads an operator with blanks around it. -/
def parse (text : String) : Except Error Comparator :=
  match ofSymbol? (Text.trim text) with
  | some op => .ok op
  | none => .error (.unknownComparator text)

@[simp] theorem inverse_inverse (op : Comparator) : op.inverse.inverse = op := by
  cases op <;> rfl

@[simp] theorem converse_converse (op : Comparator) : op.converse.converse = op := by
  cases op <;> rfl

theorem inverse_converse (op : Comparator) : op.converse.inverse = op.inverse.converse := by
  cases op <;> rfl

theorem holds_inverse (op : Comparator) (order : Ordering) :
    op.inverse.holds order = !op.holds order := by
  cases op <;> cases order <;> rfl

theorem holds_converse (op : Comparator) (order : Ordering) :
    op.converse.holds order.swap = op.holds order := by
  cases op <;> cases order <;> rfl

end Comparator
end TemporalPattern
