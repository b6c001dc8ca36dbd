import RecordStore.Client.Basic
import RecordStore.Codec.Attribute

/-!
# Saving and loading records

A record is saved whole. On tables with optimistic locking the saved revision is one above that of
the record, and the stored item must still be at the revision of the record. Items at an older
version are migrated when they are loaded; the migrated record is then saved, unless another client
was faster.
-/

namespace RecordStore

open Expression (Builder Building Compiled)

structure SaveOptions where
  /-- Whether an item under the same key may be replaced. -/
  overwrite : Bool
  /-- Whether the revision is checked and advanced, on tables with optimistic locking. -/
  locking : Bool
  deriving DecidableEq, Inhabited, Repr

def SaveOptions.standard : SaveOptions :=
  ⟨true, true⟩

/-- A record that is ready to be stored. -/
structure PreparedPut where
  item : Item
  key : Item
  compiled : Compiled
  /-- The record as it will be stored. -/
  record : Record

/-- Requires the stored item to be at an observed revision. Records that were never stored have
none. -/
def TableSchema.requireRevision (table : TableSchema) (observed : Int64) : Building Unit := do
  if table.optimisticLocking && observed ≠ 0 then
    Builder.requireEqual [table.revisionAttribute] (.number (toString observed.toInt))

namespace PreparedPut

/-- The conditions of a save. The item that a migrated record replaces must still be at an older
version. -/
def require (table : TableSchema) (observed : Int64) (options : SaveOptions) (isMigrated : Bool) :
    Building Unit := do
  if !options.overwrite then Builder.requireAbsent [table.keys.hash.wireName]
  if options.locking then table.requireRevision observed
  if isMigrated then
    Builder.requireAbsentOrLess [table.versionAttribute] (Codec.versionAttribute table.version)

/-- The record with its revision advanced, on tables with optimistic locking. -/
def advance (table : TableSchema) (record : Record) (locking : Bool) : Record :=
  if table.optimisticLocking && locking then { record with revision := record.revision + 1 }
  else record

def prepare (table : TableSchema) (record : Record) (options : SaveOptions) (isMigrated : Bool) :
    Except Error PreparedPut := do
  let stored := advance table record options.locking
  let item ← stored.toItem table
  let key ← table.keyItem record
  let ((), builder) ← Builder.run "" (require table record.revision options isMigrated)
  return ⟨item, key, builder.compile, stored⟩

end PreparedPut

/-- What loading made of a stored item. -/
structure Loaded where
  record : Record
  /-- Whether the item was at an older version. -/
  isMigrated : Bool

namespace Client

/-- Stores a record and answers it as it is stored. -/
def put (client : Client) (table : TableSchema) (record : Record) (options : SaveOptions)
    (isMigrated : Bool) : SessionCall Record := do
  let prepared ← (PreparedPut.prepare table record options isMigrated : Except Error PreparedPut)
  let _ ← client.callWithKey ⟨table.name, none, .write⟩ prepared.key
    (Store.putItem ⟨table.name, prepared.item, prepared.compiled.guard, ⟨.nothing, true⟩⟩)
  return prepared.record

/-- Saves a record of a table by name. -/
def save (client : Client) (tableName : String) (record : Record) (options : SaveOptions) :
    SessionCall Record := do
  let table ← (client.table tableName : Except Error TableSchema)
  client.put table record options false

/-- The record that a stored item holds once it is migrated. -/
def decode (client : Client) (table : TableSchema) (item : Item) : Except Error Loaded :=
  match (upgrade table (client.registry.migrationsOf table.name)).run.run item with
  | (.ok outcome, item) => do
    let record ← Record.ofItem table item
    return ⟨record, match outcome with
      | .migrated _ => true
      | _ => false⟩
  | (.error error, _) => .error error

/-- Stores a migrated record. One that was written meanwhile is left as it is. -/
def writeBack (client : Client) (table : TableSchema) (record : Record) : SessionCall Record :=
  tryCatch (client.put table record .standard true) fun error =>
    if error.isWriteConflict then return record else throw error

/-- The record of a stored item. If it was migrated it is stored again, where that is allowed. -/
def load (client : Client) (table : TableSchema) (writesBack : Bool) (item : Item) :
    SessionCall Record := do
  let loaded ← (client.decode table item : Except Error Loaded)
  if loaded.isMigrated && writesBack && client.config.writesBack then
    client.writeBack table loaded.record
  else return loaded.record

end Client

end RecordStore
