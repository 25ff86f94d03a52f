import TemporalPattern.Element
import TemporalPattern.Json.Read
import TemporalPattern.Settings.Toml.Document

/-!
# Loading settings

Settings are the given ones, or the defaults, with a file laid over them. The format of a file goes
by its extension. Texts, numbers, truth values and dates can be labels; tables and lists cannot.
-/

namespace TemporalPattern

/-- A file that is asked for by name. -/
inductive SettingsFile where
  | missing
  | present (extension : String) (text : String)
  deriving DecidableEq, Repr

namespace SettingsFile

/-- The table a file holds, if it can be read. -/
def read? : SettingsFile → Option (Fields Entry)
  | missing => none
  | present extension text =>
    match extension with
    | "toml" => Toml.read? text
    | "json" => do
      match ← Entry.ofJson? (← Json.read? text) with
      | .table fields => some fields
      | _ => none
    | _ => none

end SettingsFile

namespace Settings

/-- The labels with their names in a file. -/
def labels : List (String × (Settings → String)) :=
  [("default_graph_label", graphLabel), ("default_vertex_label", vertexLabel),
    ("default_edge_label", edgeLabel)]

def toEntry (s : Settings) : Entry :=
  .table [("default_graph_label", .scalar s.graphLabel),
    ("default_vertex_label", .scalar s.vertexLabel), ("default_edge_label", .scalar s.edgeLabel),
    ("logging", .table [("log_level", .scalar s.logLevel)])]

def scalar? : Option Entry → Option String
  | some (.scalar text) => some text
  | _ => none

/-- The level of the log, in a table or as the first item of a list. -/
def logLevel? : Option Entry → Option String
  | some (.list items) => scalar? items.head?
  | some e => scalar? (e.get? "log_level")
  | none => none

/-- The settings an entry holds. -/
def ofEntry? (e : Entry) : Option Settings := do
  return ⟨← scalar? (e.get? "default_graph_label"), ← scalar? (e.get? "default_vertex_label"),
    ← scalar? (e.get? "default_edge_label"), ← logLevel? (e.get? "logging")⟩

/-- Lays a file over the given settings, if one is asked for. Fails if the file cannot be read or
has a value of the wrong kind. -/
def load? (given? : Option Settings) (file? : Option SettingsFile) : Option Settings := do
  let given := given?.getD {}
  match file? with
  | none => return given
  | some file => ofEntry? (Entry.overlay (← file.read?) given.toEntry)

end Settings
end TemporalPattern
