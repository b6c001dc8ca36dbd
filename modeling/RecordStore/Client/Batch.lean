import RecordStore.Client.Save
import RecordStore.Store.Batch

/-!
# Batches of records

A batch is cut into calls that the store accepts. What a call leaves unprocessed is sent again,
before the next call, as often as the retry policy allows.
-/

namespace RecordStore

/-- The most keys in one call. -/
def maxBatchKeys : Nat := 100

/-- The most writes in one call. -/
def maxBatchWrites : Nat := 25

/-- One write of a batch, which is made whatever is stored. -/
inductive RecordWrite where
  | put (record : Record)
  | delete (key : RecordKey)
  deriving Inhabited

namespace Batch

/-- The list cut into runs of a size, the last of which may be shorter. -/
def chunks {α : Type} (size : Nat) (list : List α) : List (List α) :=
  (List.range ((list.length + size - 1) / size)).map fun position =>
    (list.drop (position * size)).take size

/-- Requests gathered by their tables, which come in ascending order. -/
def byTable {α : Type} (requests : List (String × α)) : List (String × List α) :=
  requests.foldl (fun gathered (table, request) =>
    Entries.insert gathered table ((Entries.find? gathered table).getD [] ++ [request])) []

/-- Adds records to those of a table. -/
def addRecords (held : List (String × List Record)) (table : String) (records : List Record) :
    List (String × List Record) :=
  Entries.put held table ((Entries.find? held table).getD [] ++ records)

end Batch

namespace RecordWrite

/-- The write as the store takes it. Puts advance the revision but do not check it. -/
def entry (table : TableSchema) : RecordWrite → Except Error BatchEntry
  | .put record => do
    let item ← (PreparedPut.advance table record true).toItem table
    return ⟨some item, none⟩
  | .delete key => do return ⟨none, some (← table.keys.toItem key)⟩

end RecordWrite

namespace Client

open Batch

/-! ### Reading -/

/-- The stored keys of a batch, each once. -/
def batchKeys (client : Client) (items : List (String × List RecordKey)) :
    Except Error (List (String × Item)) := do
  let keys ← items.mapM fun (tableName, keys) => do
    let table ← client.table tableName
    keys.mapM fun key => do return (tableName, ← table.keys.toItem key)
  return keys.flatten.eraseDups

/-- Loads the items that a call found in one table. -/
def loadTable (client : Client) (held : List (String × List Record))
    (response : String × List Item) : SessionCall (List (String × List Record)) := do
  let table ← (client.table response.1 : Except Error TableSchema)
  return addRecords held response.1 (← response.2.mapM (client.load table true))

/-- Sends a call and then what it left unprocessed, with at most `bound` calls in all. -/
def getChunk (client : Client) :
    Nat → Nat → List (String × List Item) → List (String × List Record) →
    SessionCall (List (String × List Record))
  | 0, _, _, held => return held
  | bound + 1, attempt, keys, held => do
    client.acquireAll .read (Entries.names keys)
    let requests := keys.map fun (table, keys) => (table, ⟨keys, none, none⟩)
    let answer ← Session.call (Store.batchGet requests true)
    Session.recordAll .read answer.capacities
    let held ← answer.responses.foldlM client.loadTable held
    let left := answer.unprocessed.map fun (table, request) => (table, request.keys)
    if left.isEmpty then return held
    else
      client.awaitRetry attempt (Entries.count left)
      client.getChunk bound (attempt + 1) left held

/-- The number of calls that suffice: only a round that is made to fail leaves anything. -/
def callBound : SessionCall Nat := do
  return (← get).store.unprocessedRounds + 1

/-- The records under the keys that hold one, with an entry for every table. -/
def batchGet (client : Client) (items : List (String × List RecordKey)) :
    SessionCall (List (String × List Record)) := do
  let keys ← (client.batchKeys items : Except Error (List (String × Item)))
  let empty := items.map fun (table, _) => (table, [])
  (chunks maxBatchKeys keys).foldlM (fun held chunk => do
    client.getChunk (← callBound) 1 (byTable chunk) held) empty

/-! ### Writing -/

/-- The writes of a batch as the store takes them. -/
def batchEntries (client : Client) (items : List (String × List RecordWrite)) :
    Except Error (List (String × BatchEntry)) := do
  let entries ← items.mapM fun (tableName, writes) => do
    let table ← client.table tableName
    writes.mapM fun write => do return (tableName, ← write.entry table)
  return entries.flatten

/-- Sends a call and then what it left unprocessed, with at most `bound` calls in all. -/
def writeChunk (client : Client) : Nat → Nat → List (String × List BatchEntry) → SessionCall Unit
  | 0, _, _ => return ()
  | bound + 1, attempt, entries => do
    client.acquireAll .write (Entries.names entries)
    let answer ← Session.call (Store.batchWrite entries true)
    Session.recordAll .write answer.capacities
    if !answer.unprocessed.isEmpty then
      client.awaitRetry attempt (Entries.count answer.unprocessed)
      client.writeChunk bound (attempt + 1) answer.unprocessed

/-- Makes writes to several tables, those to one table in the order given. -/
def batchWrite (client : Client) (items : List (String × List RecordWrite)) : SessionCall Unit := do
  let entries ← (client.batchEntries items : Except Error (List (String × BatchEntry)))
  (chunks maxBatchWrites entries).forM fun chunk => do
    client.writeChunk (← callBound) 1 (byTable chunk)

end Client

end RecordStore
