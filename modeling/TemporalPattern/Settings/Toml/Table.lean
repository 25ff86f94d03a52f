import TemporalPattern.Settings.Entry

/-!
# Tables of a TOML document

Tables remember how they came to be, because only an implied table may be declared later and only a
dotted one may be extended by a dotted key.
-/

namespace TemporalPattern.Toml

/-- How a table came to be: by its own header, as part of the path of another header, or by a dotted
key. -/
inductive Origin where
  | declared
  | implied
  | dotted
  deriving DecidableEq, Repr

inductive Node where
  | value (e : Entry)
  | table (origin : Origin) (fields : List (String × Node))
  /-- An array of tables. -/
  | tables (each : List (List (String × Node)))

abbrev Table := Fields Node

mutual

def Node.toEntry : Node → Entry
  | .value e => e
  | .table _ fields => .table (fieldEntries fields)
  | .tables each => .list (tableEntries each)

def fieldEntries : Table → Fields Entry
  | [] => []
  | (name, node) :: rest => (name, node.toEntry) :: fieldEntries rest

def tableEntries : List (Table) → List Entry
  | [] => []
  | fields :: rest => .table (fieldEntries fields) :: tableEntries rest

end

/-! ## Building tables -/

/-- Changes the table at the path of a header, which is implied where it is missing. An array of
tables means its last one. -/
def within (change : Table → Option Table) : List String → Table → Option Table
  | [], fields => change fields
  | name :: path, fields =>
    match fields.lookup name with
    | none => do
      let inner ← within change path []
      return Fields.assign name (.table .implied inner) fields
    | some (.value _) => none
    | some (.table origin inner) => do
      let inner ← within change path inner
      return Fields.assign name (.table origin inner) fields
    | some (.tables each) => do
      let last ← within change path (← each.getLast?)
      return Fields.assign name (.tables (each.dropLast ++ [last])) fields

/-- Opens a table with its own header. -/
def declare (name : String) (fields : Table) : Option Table :=
  match fields.lookup name with
  | none => some (Fields.assign name (.table .declared []) fields)
  | some (.table .implied inner) => some (Fields.assign name (.table .declared inner) fields)
  | some _ => none

/-- Opens one more table of an array. -/
def declareNext (name : String) (fields : Table) : Option Table :=
  match fields.lookup name with
  | none => some (Fields.assign name (.tables [[]]) fields)
  | some (.tables each) => some (Fields.assign name (.tables (each ++ [[]])) fields)
  | some _ => none

/-- Adds a value under a dotted key. `mayTake` says whether a key may be added to this table. -/
def add (mayTake : Bool) (key : String) (value : Entry) : List String → Table → Option Table
  | [], fields =>
    if mayTake && (fields.lookup key).isNone then some (fields ++ [(key, .value value)]) else none
  | name :: path, fields =>
    match fields.lookup name with
    | none => do
      let inner ← add true key value path []
      return Fields.assign name (.table .dotted inner) fields
    | some (.value _) | some (.table .declared _) => none
    | some (.table origin inner) => do
      let inner ← add (origin = .dotted) key value path inner
      return Fields.assign name (.table origin inner) fields
    | some (.tables each) => do
      let last ← add false key value path (← each.getLast?)
      return Fields.assign name (.tables (each.dropLast ++ [last])) fields

end TemporalPattern.Toml
