import RecordStore.Store.Basic

/-!
# Calls on one table
-/

namespace RecordStore.Store

open Expression (Bindings)

def getContext (request : GetRequest) : RequestContext :=
  { RequestContext.ofTable request.table with key := request.key, names := request.names }

/-- The context of a write: its key, its update and what guards it. -/
def writeContext (table : String) (key : Option Item) (update : Option String) (guard : Guard) :
    RequestContext :=
  ⟨table, key, update, guard.condition, guard.names, guard.values⟩

def getItem (request : GetRequest) : StoreCall ItemAnswer := do
  let context := getContext request
  record .getItem request.table 1
  let table ← requireTable request.table context
  let key ← checked context (table.exactKey (request.key.getD []))
  let item ← checked context ((table.find? key).mapM fun item =>
    Expression.projectItem item request.projection ⟨request.names.getD [], []⟩)
  return ⟨item, capacity request.reportsCapacity request.table 1⟩

def putItem (request : PutRequest) : StoreCall ItemAnswer := do
  let context := writeContext request.table none none request.guard
  record .putItem request.table 1
  match ← write request.table context fun table =>
      table.put request.item request.guard.condition request.guard.bindings with
  | .applied old =>
    return ⟨request.options.returned.select old none,
      capacity request.options.reportsCapacity request.table 1⟩
  | .rejected => throw (.writeConflict context)

/-- An update without an expression is refused before it is recorded. -/
def updateItem (request : UpdateRequest) : StoreCall ItemAnswer := do
  let context := writeContext request.table request.key request.update request.guard
  match request.update with
  | none => throw (.invalidRequest .updateRequired context)
  | some expression =>
    record .updateItem request.table 1
    match ← write request.table context fun table =>
        table.update (request.key.getD []) expression request.guard.condition
          request.guard.bindings with
    | .applied updated =>
      return ⟨request.options.returned.select updated.old (some updated.new),
        capacity request.options.reportsCapacity request.table 1⟩
    | .rejected => throw (.writeConflict context)

def deleteItem (request : DeleteRequest) : StoreCall ItemAnswer := do
  let context := writeContext request.table request.key none request.guard
  record .deleteItem request.table 1
  match ← write request.table context fun table =>
      table.delete (request.key.getD []) request.guard.condition request.guard.bindings with
  | .applied old =>
    return ⟨request.options.returned.select old none,
      capacity request.options.reportsCapacity request.table 1⟩
  | .rejected => throw (.writeConflict context)

/-- The context of a paginated read with the condition that it names. -/
def readContext (request : ReadRequest) (condition : Option String) : RequestContext :=
  ⟨request.table, none, none, condition, request.names, request.values⟩

def query (request : QueryRequest) : StoreCall PageAnswer := do
  let name := request.read.table
  let context := readContext request.read request.keyCondition
  record .query name 0
  let table ← requireTable name context
  let page ← checked context
    (table.query request.keyCondition request.forward request.read.page)
  return ⟨page, capacity request.read.reportsCapacity name page.scanned⟩

def scan (request : ScanRequest) : StoreCall PageAnswer := do
  let name := request.read.table
  let context := readContext request.read request.read.filter
  record .scan name 0
  let table ← requireTable name context
  let page ← checked context (table.scan request.segment request.total request.read.page)
  return ⟨page, capacity request.read.reportsCapacity name page.scanned⟩

def describeTable (name : String) : StoreCall TableDetails := do
  record .describeTable name 0
  let table ← requireTable name (.ofTable name)
  return ⟨name, table.units, table.indexes.map fun (index, _) => (index, table.units)⟩

end RecordStore.Store
