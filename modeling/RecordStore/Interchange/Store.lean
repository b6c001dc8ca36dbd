import RecordStore.Interchange.Attribute
import RecordStore.Store.Request
import RecordStore.Store.Basic

/-!
# Store requests as JSON

What a request leaves out is empty: a missing table has the empty name, a missing item no
attributes.
-/

namespace RecordStore.Interchange

open Reading

/-! ### Requests -/

def readReturned : Json → Reading Returned
  | .string "NONE" => .ok .nothing
  | .string "ALL_OLD" | .string "UPDATED_OLD" => .ok .old
  | .string "ALL_NEW" | .string "UPDATED_NEW" => .ok .new
  | _ => .error "return value expected"

/-- Whether a request asks for the capacity that it consumes. -/
def readsCapacity (json : Json) : Reading Bool := do
  match ← optional text json "capacity" with
  | some "TOTAL" | some "INDEXES" => return true
  | _ => return false

def readTableName (json : Json) : Reading String :=
  defaulted text "" json "table"

def readGuard (json : Json) : Reading Guard := do
  return ⟨← optional text json "condition", ← optional readNames json "names",
    ← optional readItem json "values"⟩

def readWriteOptions (json : Json) : Reading WriteOptions := do
  return ⟨← defaulted readReturned .nothing json "return", ← readsCapacity json⟩

def readGetRequest (json : Json) : Reading GetRequest := do
  return ⟨← readTableName json, ← optional readItem json "key", ← optional text json "projection",
    ← optional readNames json "names", ← readsCapacity json⟩

def readPutRequest (json : Json) : Reading PutRequest := do
  return ⟨← readTableName json, ← defaulted readItem [] json "item", ← readGuard json,
    ← readWriteOptions json⟩

def readUpdateRequest (json : Json) : Reading UpdateRequest := do
  return ⟨← readTableName json, ← optional readItem json "key", ← optional text json "update",
    ← readGuard json, ← readWriteOptions json⟩

def readDeleteRequest (json : Json) : Reading DeleteRequest := do
  return ⟨← readTableName json, ← optional readItem json "key", ← readGuard json,
    ← readWriteOptions json⟩

def readReadRequest (json : Json) : Reading ReadRequest := do
  return {
    table := ← readTableName json
    index := ← optional text json "index"
    filter := ← optional text json "filter"
    projection := ← optional text json "projection"
    names := ← optional readNames json "names"
    values := ← optional readItem json "values"
    start := ← optional readItem json "start"
    limit := ← optional integer json "limit"
    reportsCapacity := ← readsCapacity json }

def readQueryRequest (json : Json) : Reading QueryRequest := do
  return ⟨← readReadRequest json, ← optional text json "key_condition",
    ← defaulted flag true json "forward"⟩

def readScanRequest (json : Json) : Reading ScanRequest := do
  return ⟨← readReadRequest json, ← optional integer json "segment",
    ← optional integer json "total_segments"⟩

/-- The keys that a batch reads from a table, with the name of the table. -/
def readBatchKeys (json : Json) : Reading (String × BatchKeys) := do
  return (← readTableName json, ⟨← defaulted (list readItem) [] json "keys",
    ← optional text json "projection", ← optional readNames json "names"⟩)

def readBatchEntry (json : Json) : Reading BatchEntry := do
  return ⟨← optional readItem json "put", ← optional readItem json "delete"⟩

def readTransactGet (json : Json) : Reading (Option TransactGet) := do
  match json with
  | .null => return none
  | _ =>
    return some ⟨← readTableName json, ← defaulted readItem [] json "key",
      ← optional text json "projection", ← optional readNames json "names"⟩

/-- One action of a transaction, none where the object names no action. -/
def readTransactAction (json : Json) : Reading (Option TransactAction) := do
  let key (part : Json) : Reading Item := defaulted readItem [] part "key"
  match member? json "put", member? json "update", member? json "delete", member? json "check" with
  | some part, _, _, _ =>
    return some (.put (← readTableName part) (← defaulted readItem [] part "item")
      (← readGuard part))
  | none, some part, _, _ =>
    return some (.update (← readTableName part) (← key part) (← defaulted text "" part "update")
      (← readGuard part))
  | none, none, some part, _ =>
    return some (.delete (← readTableName part) (← key part) (← readGuard part))
  | none, none, none, some part =>
    return some (.check (← readTableName part) (← key part)
      (← defaulted text "" part "condition") (← readGuard part))
  | none, none, none, none => return none

/-! ### Answers -/

def unitsJson (units : Option Float) : Json :=
  optionJson (fun units => .string (floatText units)) units

def capacityJson (capacity : ConsumedCapacity) : Json :=
  .array [optionJson .string capacity.table, unitsJson capacity.units,
    unitsJson capacity.readUnits, unitsJson capacity.writeUnits]

/-- An item, which goes by a name of its own, with the capacity that it took. -/
def itemAnswerJson (name : String) (answer : ItemAnswer) : Json :=
  .object [(name, optionJson itemJson answer.item),
    ("capacity", optionJson capacityJson answer.capacity)]

def itemsJson (items : List Item) : Json :=
  .array (items.map itemJson)

def pageAnswerJson (answer : PageAnswer) : Json :=
  .object [("items", itemsJson answer.page.items), ("count", .integer answer.page.items.length),
    ("scanned", .integer answer.page.scanned),
    ("last_key", optionJson itemJson answer.page.lastKey),
    ("capacity", optionJson capacityJson answer.capacity)]

def batchGetAnswerJson (answer : BatchGetAnswer) : Json :=
  .object [
    ("responses", .object (answer.responses.map fun (table, items) => (table, itemsJson items))),
    ("unprocessed", .object (answer.unprocessed.map fun (table, request) =>
      (table, itemsJson request.keys))),
    ("capacity", .array (answer.capacities.map capacityJson))]

def batchWriteAnswerJson (answer : BatchWriteAnswer) : Json :=
  .object [
    ("unprocessed", .object (answer.unprocessed.map fun (table, entries) =>
      (table, .integer entries.length))),
    ("capacity", .array (answer.capacities.map capacityJson))]

def detailsJson (details : TableDetails) : Json :=
  let units (count : Int64) : Json := .array [.integer count.toInt, .integer count.toInt]
  .object [("table", .string details.table), ("units", units details.units),
    ("indexes", .object (details.indexes.map fun (name, count) => (name, units count)))]

def callJson (call : Call) : Json :=
  .array [.string call.operation.name, .string call.table, .integer call.items]

end RecordStore.Interchange
