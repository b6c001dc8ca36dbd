import RecordStore.Codec.Attribute

/-!
# Migrations

Items stored at an older version of their table are upgraded when they are loaded: first every
pending step makes its changes, then every pending step finishes, both in the order of versions.
The item as edited so far is known also when a step fails.
-/

namespace RecordStore

/-- A computation that edits an item and may fail on the way. -/
abbrev ItemEditor := ExceptT Error (StateM Item)

structure Migration where
  /-- The version that the step upgrades to. -/
  version : UInt32
  /-- The order among steps to the same version. -/
  sequence : UInt32
  migrate : ItemEditor Unit
  /-- Changes that rely on those of every pending step. -/
  finish : ItemEditor Unit

/-- Whether one step comes before another, or may. -/
def Migration.precedes (left right : Migration) : Bool :=
  left.version < right.version ||
    (left.version = right.version && left.sequence ≤ right.sequence)

/-- How the version of a stored item relates to that of its table. -/
inductive MigrationState where
  | current
  | stale (stored : UInt32)
  | incompatible (stored : UInt32)
  deriving DecidableEq, Repr

def MigrationState.ofVersion (table : TableSchema) (stored : UInt32) : MigrationState :=
  if stored = table.version then .current
  else if stored < table.version then .stale stored
  else .incompatible stored

/-- What came of upgrading an item. -/
inductive Upgrade where
  | current
  /-- The item is stale, but its table does not migrate. -/
  | unmigrated (stored : UInt32)
  | migrated (stored : UInt32)
  deriving DecidableEq, Repr

/-- Runs the pending steps and stamps the item with the version of the table. -/
def runMigrations (table : TableSchema) (pending : List Migration) : ItemEditor Unit := do
  pending.forM Migration.migrate
  pending.forM Migration.finish
  modify fun item => Item.set item table.versionAttribute (Codec.versionAttribute table.version)

/-- Brings a stored item to the version of its table. An item without a version is at version
zero; an item at a newer version is refused. -/
def upgrade (table : TableSchema) (steps : List Migration) : ItemEditor Upgrade := do
  let stored ← Codec.storedVersion table (← get)
  match MigrationState.ofVersion table (stored.getD 0) with
  | .current => return .current
  | .incompatible stored => throw (.unsupportedVersion table.name stored table.version)
  | .stale stored =>
    if table.migrationsEnabled then
      runMigrations table (steps.filter fun step => stored < step.version)
      return .migrated stored
    else return .unmigrated stored

end RecordStore
