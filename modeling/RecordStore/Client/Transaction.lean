import RecordStore.Client.Read
import RecordStore.Client.Write
import RecordStore.Store.Transaction

/-!
# Transactions on records

A transaction reads several records as of one moment, or makes several writes of which either all
take effect or none does.
-/

namespace RecordStore

open Expression (Builder Building Compiled)

/-- One part of a transaction. -/
inductive TransactWrite where
  | put (table : String) (record : Record) (options : SaveOptions)
  /-- An update without clauses is left out of the transaction. -/
  | update (table : TableSchema) (update : Update)
  | delete (request : RecordDelete)
  /-- Requires a condition of an item that is not written. -/
  | check (table : String) (key : RecordKey) (condition : Condition)
  deriving Inhabited

def TransactWrite.table : TransactWrite → String
  | .put table .. => table
  | .update table _ => table.name
  | .delete request => request.table
  | .check table .. => table

/-- What a part of a transaction asks of the store, and the record that it leaves stored. -/
structure PreparedWrite where
  action : Option TransactAction
  record : Option Record

namespace Client

/-! ### Reading -/

def prepareGet (client : Client) (get : RecordGet) : Except Error TransactGet := do
  let table ← client.table get.table
  let request ← get.request table
  return ⟨table.name, request.key.getD [], request.projection, request.names⟩

/-- The record of an item that a transaction found. It is not stored again. -/
def loadFound (client : Client) (tableName : String) (found : Option Item) :
    SessionCall (Option Record) := do
  match found with
  | none | some [] => return none
  | some item => do
    let table ← (client.table tableName : Except Error TableSchema)
    some <$> client.load table false item

/-- The records under several keys, none where nothing is stored. -/
def transactGet (client : Client) (gets : List RecordGet) :
    SessionCall (List (Option Record)) := do
  if gets.isEmpty then return []
  else
    let parts ← (gets.mapM client.prepareGet : Except Error (List TransactGet))
    let tables := Entries.names (Entries.sorted (gets.map fun get => (get.table, ())))
    client.acquireAll .read tables
    let found ← Session.call (Store.transactGet (parts.map some))
    (gets.zip found).mapM fun (get, found) => client.loadFound get.table found

/-! ### Writing -/

def prepareWrite (client : Client) : TransactWrite → Except Error PreparedWrite
  | .put tableName record options => do
    let table ← client.table tableName
    let prepared ← PreparedPut.prepare table record options false
    return ⟨some (.put table.name prepared.item prepared.compiled.guard), some prepared.record⟩
  | .update table update => do
    let compiled ← update.compile table
    let action := compiled.update.map fun expression =>
      .update table.name update.key expression compiled.guard
    return ⟨action, some (← update.view table)⟩
  | .delete request => do
    let table ← client.table request.table
    let (key, guard) ← request.prepare table
    return ⟨some (.delete table.name key guard), none⟩
  | .check tableName key condition => do
    let table ← client.table tableName
    let key ← table.keys.toItem key
    let ((), builder) ← Builder.run "" (Builder.requireCondition table condition)
    let compiled := builder.compile
    return ⟨some (.check table.name key (compiled.condition.getD "") compiled.guard), none⟩

/-- Makes all of the writes or none, and answers the records that they leave stored. -/
def transactWrite (client : Client) (writes : List TransactWrite) :
    SessionCall (List (Option Record)) := do
  let prepared ← (writes.mapM client.prepareWrite : Except Error (List PreparedWrite))
  let actions := prepared.filterMap PreparedWrite.action
  if !actions.isEmpty then
    client.acquireAll .write (writes.map TransactWrite.table)
    Session.call (Store.transactWrite (actions.map some))
  return prepared.map PreparedWrite.record

end Client

end RecordStore
