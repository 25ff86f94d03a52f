import TemporalPattern.Fields
import TemporalPattern.Predicate

/-!
# Pattern elements

The graphs, vertices and edges declared in a pattern. An element asks for its label, unless that is
the default of its kind, and for each of its properties.
-/

namespace TemporalPattern

inductive ElementKind where
  | graph
  | vertex
  | edge
  deriving DecidableEq, Repr

/-- The labels of elements declared without one, and the level of the log. -/
structure Settings where
  graphLabel : String := "DefaultGraph"
  vertexLabel : String := "DefaultVertex"
  edgeLabel : String := "DefaultEdge"
  logLevel : String := "INFO"
  deriving DecidableEq, Repr

/-- An element of a pattern. Every key occurs once among the properties. -/
structure Element where
  name : String
  kind : ElementKind
  label? : Option String := none
  properties : Fields Value := []

namespace ElementKind

def text : ElementKind → String
  | graph => "graph"
  | vertex => "vertex"
  | edge => "edge"

/-- How the names of anonymous elements begin. -/
def anonymousStem : ElementKind → String
  | graph => "__g"
  | vertex => "__v"
  | edge => "__e"

/-- The name of an anonymous element. -/
def anonymousName (kind : ElementKind) (id : Nat) : String :=
  kind.anonymousStem ++ toString id

/-- Whether a name is that of an anonymous element of some kind. -/
def isAnonymousName (name : String) : Bool :=
  [graph, vertex, edge].any fun kind =>
    let stem := kind.anonymousStem.toList
    let id := name.toList.drop stem.length
    stem.isPrefixOf name.toList && !id.isEmpty && id.all Char.isDigit

end ElementKind

namespace Settings

def defaultLabel (s : Settings) : ElementKind → String
  | .graph => s.graphLabel
  | .vertex => s.vertexLabel
  | .edge => s.edgeLabel

end Settings

namespace Element

def withProperty (e : Element) (key : String) (value : Value) : Element :=
  { e with properties := Fields.assign key value e.properties }

def isAnonymous (e : Element) : Bool :=
  ElementKind.isAnonymousName e.name

/-- The comparisons that an element implies, its label first. -/
def comparisons (s : Settings) (e : Element) : List Comparison :=
  let label := e.label?.toList.filter (· ≠ s.defaultLabel e.kind)
  label.map (fun l => ⟨.label e.name, .eq, .value (.text l)⟩) ++
    e.properties.map fun (key, v) => ⟨.property e.name key, .eq, .value v⟩

/-- The conjunction of the comparisons that an element implies. -/
def normalForm (s : Settings) (e : Element) : NormalForm :=
  (e.comparisons s).foldl (fun n c => n.and (.ofLiteral (.positive c))) .top

theorem normalForm_eq (s : Settings) (e : Element) :
    e.normalForm s =
      ((e.comparisons s).map fun c => .ofLiteral (.positive c)).foldl Cnf.and .top := by
  rw [normalForm, List.foldl_map]

end Element
end TemporalPattern
