import RecordStore.Store.Basic

/-!
# Batches

A batch reads from or writes to several tables, one after another in the order of their names. In a
round that leaves work unprocessed every table handles the first half of its share. A batch that
fails keeps the writes it has made.
-/

namespace RecordStore.Store

/-- Whether the current batch call leaves work unprocessed. -/
def takeUnprocessedRound : StoreCall Bool := do
  match (← get).unprocessedRounds with
  | 0 => return false
  | rounds + 1 =>
    modify fun store => { store with unprocessedRounds := rounds }
    return true

/-- The number of requests that a table handles. -/
def processedCount (throttled : Bool) (count : Nat) : Nat :=
  if throttled then count / 2 else count

/-- What is left over for a table, nothing when all is processed. -/
def leftOver {α β : Type} (table : String) (rest : List α) (form : List α → β) :
    List (String × β) :=
  if rest.isEmpty then [] else [(table, form rest)]

/-! ### Reading -/

/-- The projected item under a key, none when nothing is stored there. -/
def readKey (table : StoredTable) (context : RequestContext) (request : BatchKeys) (key : Item) :
    StoreCall (Option Item) := do
  let key ← checked context (table.exactKey key)
  checked context ((table.find? key).mapM fun item =>
    Expression.projectItem item request.projection ⟨request.names.getD [], []⟩)

def batchGetTable (context : RequestContext) (throttled reportsCapacity : Bool) (name : String)
    (request : BatchKeys) : StoreCall BatchGetAnswer := do
  let table ← requireTable name context
  let processed := processedCount throttled request.keys.length
  let found ← (request.keys.take processed).mapM (readKey table context request)
  return {
    responses := [(name, found.filterMap id)]
    unprocessed := leftOver name (request.keys.drop processed) fun keys => { request with keys }
    capacities := (capacity reportsCapacity name processed).toList }

def batchGetTables (context : RequestContext) (throttled reportsCapacity : Bool) :
    List (String × BatchKeys) → StoreCall BatchGetAnswer
  | [] => return ⟨[], [], []⟩
  | (name, request) :: rest => do
    let first ← batchGetTable context throttled reportsCapacity name request
    let others ← batchGetTables context throttled reportsCapacity rest
    return ⟨first.responses ++ others.responses, first.unprocessed ++ others.unprocessed,
      first.capacities ++ others.capacities⟩

/-- Reads items by key; the tables are named in ascending order. -/
def batchGet (requests : List (String × BatchKeys)) (reportsCapacity : Bool) :
    StoreCall BatchGetAnswer := do
  let context := RequestContext.ofTables (Entries.names requests)
  record .batchGetItem context.table
    (Entries.count (requests.map fun (table, request) => (table, request.keys)))
  let throttled ← takeUnprocessedRound
  batchGetTables context throttled reportsCapacity requests

/-! ### Writing -/

def writeEntry (name : String) (context : RequestContext) (entry : BatchEntry) :
    StoreCall Unit := do
  match entry.put, entry.delete with
  | some item, none =>
    let _ ← write name context fun table => table.put item none .none
  | none, some key =>
    let _ ← write name context fun table => table.delete key none .none
  | _, _ => throw (.invalidRequest .putOrDelete context)

def batchWriteTable (context : RequestContext) (throttled reportsCapacity : Bool) (name : String)
    (entries : List BatchEntry) : StoreCall BatchWriteAnswer := do
  let _ ← requireTable name context
  let processed := processedCount throttled entries.length
  (entries.take processed).forM (writeEntry name context)
  return {
    unprocessed := leftOver name (entries.drop processed) id
    capacities := (capacity reportsCapacity name processed).toList }

def batchWriteTables (context : RequestContext) (throttled reportsCapacity : Bool) :
    List (String × List BatchEntry) → StoreCall BatchWriteAnswer
  | [] => return ⟨[], []⟩
  | (name, entries) :: rest => do
    let first ← batchWriteTable context throttled reportsCapacity name entries
    let others ← batchWriteTables context throttled reportsCapacity rest
    return ⟨first.unprocessed ++ others.unprocessed, first.capacities ++ others.capacities⟩

/-- Puts and deletes items; the tables are named in ascending order. -/
def batchWrite (requests : List (String × List BatchEntry)) (reportsCapacity : Bool) :
    StoreCall BatchWriteAnswer := do
  let context := RequestContext.ofTables (Entries.names requests)
  record .batchWriteItem context.table (Entries.count requests)
  let throttled ← takeUnprocessedRound
  batchWriteTables context throttled reportsCapacity requests

end RecordStore.Store
