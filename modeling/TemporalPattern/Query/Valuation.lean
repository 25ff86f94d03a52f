import TemporalPattern.Comparison.Valuation
import TemporalPattern.Query

/-!
# What queries ask of the data

An element asks for its label, unless that is the default of its kind, and for its properties; a
filter is asked of the elements together.
-/

namespace TemporalPattern

universe u

/-- Whether the data has the label and the properties of an element. -/
def Element.Holds {D : Type u} [LinearOrder D] (s : Settings) (v : Valuation D) (e : Element) :
    Prop :=
  (∀ label ∈ e.label?, label ≠ s.defaultLabel e.kind →
    v.property e.name labelProperty = v.value (.text label)) ∧
  ∀ field ∈ e.properties, v.property e.name field.1 = v.value field.2

/-- Whether the data has everything a pattern and the predicate of its filter ask for. -/
def Query.Holds {D : Type u} [LinearOrder D] (s : Settings) (v : Valuation D) (q : Query)
    (p : Predicate) : Prop :=
  (∀ e ∈ q.elements, e.Holds s v) ∧
    p.Holds (v.ofPattern (q.elements.map (·.name))).Satisfies

end TemporalPattern
