import RecordStore.Error.Basic
import RecordStore.Schema.Registry
import RecordStore.Store.Request

/-!
# The store

The tables of a registry, kept in memory. Every call is recorded. Batch calls can be told to leave
half of their work unprocessed for a number of rounds. A call yields its answer or error together
with the store as it is afterwards.
-/

namespace RecordStore

open Expression (Fault)

inductive Operation where
  | getItem
  | putItem
  | updateItem
  | deleteItem
  | query
  | scan
  | batchGetItem
  | batchWriteItem
  | transactGetItems
  | transactWriteItems
  | describeTable
  deriving DecidableEq, Repr

def Operation.name : Operation → String
  | .getItem => "GetItem"
  | .putItem => "PutItem"
  | .updateItem => "UpdateItem"
  | .deleteItem => "DeleteItem"
  | .query => "Query"
  | .scan => "Scan"
  | .batchGetItem => "BatchGetItem"
  | .batchWriteItem => "BatchWriteItem"
  | .transactGetItems => "TransactGetItems"
  | .transactWriteItems => "TransactWriteItems"
  | .describeTable => "DescribeTable"

/-- A call that the store received. -/
structure Call where
  operation : Operation
  /-- The table, or the tables joined by commas. -/
  table : String
  /-- The number of keys or writes that the call carried. -/
  items : Nat
  deriving DecidableEq, Repr

structure Store where
  tables : List (String × StoredTable)
  /-- The calls received, in order. -/
  calls : List Call
  /-- The number of batch calls that will leave work unprocessed. -/
  unprocessedRounds : Nat

abbrev StoreCall := ExceptT Error (StateM Store)

namespace Store

def emptyTable (units : Int64) (table : TableSchema) : StoredTable where
  keys := .ofSchema table.keys
  indexes := table.indexes.map fun index => (index.name, .ofSchema index.keys)
  items := []
  units := units

/-- Empty tables with the given throughput. -/
def empty (registry : Registry) (units : Int64) : Store where
  tables := registry.tables.map fun table => (table.name, emptyTable units table)
  calls := []
  unprocessedRounds := 0

def table? (store : Store) (name : String) : Option StoredTable :=
  Entries.find? store.tables name

def setTable (store : Store) (name : String) (table : StoredTable) : Store :=
  { store with tables := Entries.put store.tables name table }

def record (operation : Operation) (table : String) (items : Nat) : StoreCall Unit :=
  modify fun store => { store with calls := store.calls ++ [⟨operation, table, items⟩] }

def requireTable (name : String) (context : RequestContext) : StoreCall StoredTable := do
  match (← get).table? name with
  | some table => return table
  | none => throw (.missingTable name context)

/-- The result of a computation on a request, which a fault refuses. -/
def checked {α : Type} (context : RequestContext) (result : Except Fault α) : StoreCall α :=
  match result with
  | .ok value => pure value
  | .error fault => throw (.invalidRequest fault context)

/-- Writes to a table. -/
def write {α : Type} (name : String) (context : RequestContext)
    (step : StoredTable → Except Fault (Outcome (StoredTable × α))) : StoreCall (Outcome α) := do
  let table ← requireTable name context
  match ← checked context (step table) with
  | .applied (table, result) =>
    modify fun store => store.setTable name table
    return .applied result
  | .rejected => return .rejected

/-- The capacity of a call, at least one unit, when it is asked for. -/
def capacity (requested : Bool) (table : String) (units : Nat) : Option ConsumedCapacity :=
  if requested then some ⟨some table, some (max units 1).toFloat, none, none⟩ else none

/-! ### Direct access -/

/-- Stores an item whatever is there. -/
def insert (table : String) (item : Item) : StoreCall Unit := do
  let _ ← write table (.ofTable table) fun held => held.put item none .none

/-- The item under a key. -/
def item? (store : Store) (table : String) (key : Item) : Option Item :=
  (store.table? table).bind fun held => held.find? key

/-- Every item of a table in the order of insertion. -/
def items (store : Store) (table : String) : List Item :=
  (store.table? table).elim [] StoredTable.items

def clearCalls (store : Store) : Store :=
  { store with calls := [] }

/-- Makes the next batch calls process only half of what they carry. -/
def failUnprocessed (store : Store) (rounds : Nat) : Store :=
  { store with unprocessedRounds := rounds }

end Store

end RecordStore
