import RecordStore.Migration.Basic
import RecordStore.Schema.Validation

/-!
# The registry of tables

The schemas of all tables with their migrations. The steps of a table are ordered by version and
sequence, steps that share both staying in the order of their registration.
-/

namespace RecordStore

structure Registry where
  tables : List TableSchema
  /-- The steps of the tables that have any, ascending by table name. -/
  migrations : List (String × List Migration)

namespace Registry

def acceptTable (accepted : List TableSchema) (description : TableDescription) :
    Except Error (List TableSchema) := do
  let table ← description.resolve
  SchemaFault.check (accepted.all fun other => other.name ≠ table.name)
    (.repeatedTable table.name)
  return accepted ++ [table]

/-- Registers a step to one of the versions of its table. -/
def register (tables : List TableSchema) (registered : List (String × List Migration))
    (step : String × Migration) : Except Error (List (String × List Migration)) := do
  match tables.find? fun table => table.name = step.1 with
  | none => throw (.schema (.migrationTable step.1))
  | some table =>
    SchemaFault.check (step.2.version ≠ 0 && step.2.version ≤ table.version)
      (.migrationVersion step.1 step.2.version table.version)
    let earlier := (Entries.find? registered step.1).getD []
    return Entries.insert registered step.1 (earlier ++ [step.2])

def build (description : SchemaDescription) (migrations : List (String × Migration)) :
    Except Error Registry := do
  let tables ← description.tables.foldlM acceptTable []
  let registered ← migrations.foldlM (register tables) []
  return ⟨tables, registered.map fun (table, steps) => (table, steps.mergeSort Migration.precedes)⟩

def requireTable (registry : Registry) (name : String) : Except Error TableSchema :=
  match registry.tables.find? fun table => table.name = name with
  | some table => .ok table
  | none => .error (.contract (.unknownTable name))

/-- The steps of a table in the order in which they run. -/
def migrationsOf (registry : Registry) (table : String) : List Migration :=
  (Entries.find? registry.migrations table).getD []

/-- How messages show a registry: its tables, and the versions and sequences of their steps. -/
def text (registry : Registry) : String :=
  let listed (texts : List String) : String := ", ".intercalate texts
  let step (step : Migration) : String :=
    "(" ++ toString step.version.toNat ++ ", " ++ toString step.sequence.toNat ++ ")"
  let steps (entry : String × List Migration) : String :=
    Text.quote entry.1 ++ ": [" ++ listed (entry.2.map step) ++ "]"
  "Registry \x7b tables: [" ++ listed (registry.tables.map fun table => Text.quote table.name) ++
    "], migrations: \x7b" ++ listed (registry.migrations.map steps) ++ "\x7d \x7d"

end Registry

end RecordStore
