import RecordStore.Client.Save
import RecordStore.Update.View

/-!
# Updating and deleting records
-/

namespace RecordStore

open Expression (Builder Building Compiled)

structure RecordDelete where
  table : String
  key : RecordKey
  /-- The revision that the item must be at, on tables with optimistic locking. Without one, or at
  zero, any item is deleted. -/
  expectedRevision : Option Int64
  condition : Option Condition
  deriving Inhabited

namespace RecordDelete

/-- Deletes a record that must still be at the revision at which it was loaded. -/
def ofRecord (table : TableSchema) (record : Record) : Except Error RecordDelete := do
  let key ← table.keys.ofRecord record
  return ⟨table.name, key, some record.revision, none⟩

def require (table : TableSchema) (delete : RecordDelete) : Building Unit := do
  delete.condition.forM (Builder.requireCondition table)
  table.requireRevision (delete.expectedRevision.getD 0)

/-- The key with the compiled conditions. -/
def prepare (table : TableSchema) (delete : RecordDelete) : Except Error (Item × Guard) := do
  let key ← table.keys.toItem delete.key
  let ((), builder) ← Builder.run "" (delete.require table)
  return (key, builder.compile.guard)

end RecordDelete

namespace Client

/-- An update of a record of a table by name, with changes made to it. -/
def startUpdate (client : Client) (tableName : String) (record : Record)
    (changes : List FieldChange) : Except Error (TableSchema × Update) := do
  let table ← client.table tableName
  let update ← Update.start table record
  return (table, ← update.changeAll table changes)

/-- Sends an update and answers the record as it is stored. An update without clauses is not
sent. -/
def sendUpdate (client : Client) (table : TableSchema) (update : Update) : SessionCall Record := do
  let compiled ← (update.compile table : Except Error Compiled)
  match compiled.update with
  | none => (update.view table : Except Error Record)
  | some expression =>
    let stored ← client.callWithKey ⟨table.name, none, .write⟩ update.key
      (Store.updateItem ⟨table.name, some update.key, some expression, compiled.guard,
        ⟨.new, true⟩⟩)
    match stored with
    | some item => (Record.ofItem table item : Except Error Record)
    | none => (update.view table : Except Error Record)

def update (client : Client) (tableName : String) (record : Record) (changes : List FieldChange) :
    SessionCall Record := do
  let (table, update) ← (client.startUpdate tableName record changes :
    Except Error (TableSchema × Update))
  client.sendUpdate table update

/-- Deletes an item and answers the record that it held, none when nothing was stored. -/
def delete (client : Client) (delete : RecordDelete) : SessionCall (Option Record) := do
  let table ← (client.table delete.table : Except Error TableSchema)
  let (key, guard) ← (delete.prepare table : Except Error (Item × Guard))
  let old ← client.callWithKey ⟨table.name, none, .write⟩ key
    (Store.deleteItem ⟨table.name, some key, guard, ⟨.old, true⟩⟩)
  match old with
  | none | some [] => return none
  | some item => some <$> client.load table false item

/-- Deletes a loaded record. -/
def deleteRecord (client : Client) (tableName : String) (record : Record) :
    SessionCall (Option Record) := do
  let table ← (client.table tableName : Except Error TableSchema)
  client.delete (← (RecordDelete.ofRecord table record : Except Error RecordDelete))

end Client

end RecordStore
