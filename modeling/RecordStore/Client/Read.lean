import RecordStore.Client.Save

/-!
# Reading records

A record is read by its key, or many at once by a query on one hash key or a scan. Reads of many
records go on from page to page until the last page or until enough records were read.
-/

namespace RecordStore

open Expression (Builder Building Compiled)

structure RecordGet where
  table : String
  key : RecordKey
  /-- The paths to read; without any the whole record is read. -/
  projection : List String
  deriving Inhabited

/-- What queries and scans have in common. -/
structure RecordSearch where
  table : String
  index : Option String
  filter : Option Condition
  projection : List String
  /-- The most items that a page evaluates. -/
  limit : Option Int
  start : Option Item
  /-- The number of records after which no further page is read. -/
  stopAfter : Option Nat
  deriving Inhabited

/-- Whether enough records are read, given the number of them by the end of each page. -/
def RecordSearch.isDone (search : RecordSearch) (progress : List Nat) : Bool :=
  search.stopAfter.any fun enough => progress.getLast?.any (enough ≤ ·)

structure RecordQuery where
  search : RecordSearch
  hash : Value
  range : Option Test
  forward : Bool
  deriving Inhabited

structure RecordScan where
  search : RecordSearch
  segment : Option Int
  total : Option Int
  deriving Inhabited

/-- What was read from some pages. -/
structure Records where
  records : List Record
  /-- The number of items that all pages hold. -/
  count : Int32
  /-- The number of items before filtering. -/
  scanned : Int32
  /-- Where reading can be resumed, when it stopped before the last page. -/
  lastKey : Option Item
  capacities : List ConsumedCapacity
  /-- The number of records read by the end of each page. -/
  progress : List Nat
  deriving Inhabited

namespace Records

def none : Records :=
  ⟨[], 0, 0, .none, [], []⟩

/-- Adds one more page. -/
def add (held : Records) (answer : PageAnswer) (records : List Record) : Records where
  records := held.records ++ records
  count := held.count + .ofNat answer.page.items.length
  scanned := held.scanned + .ofNat answer.page.scanned
  lastKey := answer.page.lastKey
  capacities := held.capacities ++ answer.capacity.toList
  progress := held.progress ++ [held.records.length + records.length]

/-- The sum of the capacities of all pages, under the first table that they name. -/
def capacity (held : Records) : Option ConsumedCapacity :=
  let total (units : ConsumedCapacity → Option Float) : Option Float :=
    some (held.capacities.foldl (fun sum capacity => sum + (units capacity).getD 0.0) 0.0)
  if held.capacities.isEmpty then .none
  else some {
    table := held.capacities.findSome? ConsumedCapacity.table
    units := total ConsumedCapacity.units
    readUnits := total ConsumedCapacity.readUnits
    writeUnits := total ConsumedCapacity.writeUnits }

end Records

/-- A request for one page. -/
inductive PagedRequest where
  | query (request : QueryRequest)
  | scan (request : ScanRequest)

namespace PagedRequest

def read : PagedRequest → ReadRequest
  | .query request => request.read
  | .scan request => request.read

/-- The request for the page after a key. -/
def startingAfter (key : Item) : PagedRequest → PagedRequest
  | .query request => .query { request with read := { request.read with start := some key } }
  | .scan request => .scan { request with read := { request.read with start := some key } }

def send : PagedRequest → StoreCall PageAnswer
  | .query request => Store.query request
  | .scan request => Store.scan request

end PagedRequest

namespace RecordGet

def request (table : TableSchema) (get : RecordGet) : Except Error GetRequest := do
  let key ← table.keys.toItem get.key
  let ((), builder) ← Builder.run "" (table.project get.projection)
  let compiled := builder.compile
  return ⟨table.name, some key, compiled.projection, compiled.names, true⟩

end RecordGet

namespace RecordSearch

/-- What a page of the search asks for, given its compiled filter and projection. -/
def read (table : TableSchema) (search : RecordSearch) (compiled : Compiled) : ReadRequest where
  table := table.name
  index := search.index
  filter := compiled.condition
  projection := compiled.projection
  names := compiled.names
  values := compiled.values
  start := search.start
  limit := search.limit
  reportsCapacity := true

/-- The filter and the projection. -/
def narrow (table : TableSchema) (search : RecordSearch) : Building Unit := do
  search.filter.forM (Builder.requireCondition table)
  table.project search.projection

/-- Only whole items that come from the table itself are stored again when they are migrated. -/
def writesBack (search : RecordSearch) : Bool :=
  search.index.isNone && search.projection.isEmpty

end RecordSearch

namespace RecordQuery

def keyCondition (query : RecordQuery) (table : TableSchema) (keys : KeySchema) :
    Building Unit := do
  Builder.requireKey [keys.hash.wireName] (.compare .equal query.hash)
  match query.range, keys.range with
  | some test, some range => Builder.requireKey [range.wireName] test
  | some _, none => throw (.contract (.noRangeKey (query.search.index.getD table.name)))
  | none, _ => return ()

def request (table : TableSchema) (query : RecordQuery) : Except Error QueryRequest := do
  let keys ← table.keysOf query.search.index
  let ((), builder) ← Builder.run "" do
    query.keyCondition table keys
    query.search.narrow table
  let compiled := builder.compile
  return ⟨query.search.read table compiled, compiled.keyCondition, query.forward⟩

end RecordQuery

namespace RecordScan

def request (table : TableSchema) (scan : RecordScan) : Except Error ScanRequest := do
  let _ ← table.keysOf scan.search.index
  let ((), builder) ← Builder.run "" (scan.search.narrow table)
  return ⟨scan.search.read table builder.compile, scan.segment, scan.total⟩

end RecordScan

namespace Client

/-- The record under a key, none when nothing is stored there. -/
def get (client : Client) (get : RecordGet) : SessionCall (Option Record) := do
  let table ← (client.table get.table : Except Error TableSchema)
  let request ← (get.request table : Except Error GetRequest)
  let item ← client.callWithKey ⟨table.name, none, .read⟩ (request.key.getD [])
    (Store.getItem request)
  item.mapM (client.load table get.projection.isEmpty)

/-- Reads one page and adds its records to those before. -/
def readPage (client : Client) (table : TableSchema) (writesBack : Bool) (request : PagedRequest)
    (held : Records) : SessionCall Records := do
  let throughput := ⟨table.name, request.read.index, .read⟩
  client.acquire throughput
  let answer ← Session.call request.send
  Session.recordConsumed throughput (answer.capacity.bind ConsumedCapacity.units)
  let records ← answer.page.items.mapM (client.load table writesBack)
  return held.add answer records

/-- Reads at most `bound` pages, until the last page or until those read are enough. -/
def readPages (client : Client) (table : TableSchema) (writesBack : Bool)
    (isDone : List Nat → Bool) : Nat → PagedRequest → Records → SessionCall Records
  | 0, _, held => return held
  | bound + 1, request, held => do
    let held ← client.readPage table writesBack request held
    match held.lastKey with
    | some key =>
      if isDone held.progress then return held
      else client.readPages table writesBack isDone bound (request.startingAfter key) held
    | none => return held

/-- Reads pages. Every page but the last holds an item more than those before it, and the only
items that reading adds are those that it migrates, which are no more than were there. -/
def readAll (client : Client) (table : TableSchema) (writesBack : Bool) (isDone : List Nat → Bool)
    (request : PagedRequest) : SessionCall Records := do
  let stored := ((← MonadState.get).store.items table.name).length
  client.readPages table writesBack isDone (2 * stored + 2) request .none

/-- Reads the pages of a query until they are enough. -/
def queryUntil (client : Client) (isDone : List Nat → Bool) (query : RecordQuery) :
    SessionCall Records := do
  let table ← (client.table query.search.table : Except Error TableSchema)
  let request ← (query.request table : Except Error QueryRequest)
  client.readAll table query.search.writesBack isDone (.query request)

def query (client : Client) (query : RecordQuery) : SessionCall Records :=
  client.queryUntil query.search.isDone query

/-- Reads the pages of a scan until they are enough. -/
def scanUntil (client : Client) (isDone : List Nat → Bool) (scan : RecordScan) :
    SessionCall Records := do
  let table ← (client.table scan.search.table : Except Error TableSchema)
  let request ← (scan.request table : Except Error ScanRequest)
  client.readAll table scan.search.writesBack isDone (.scan request)

def scan (client : Client) (scan : RecordScan) : SessionCall Records :=
  client.scanUntil scan.search.isDone scan

end Client

end RecordStore
