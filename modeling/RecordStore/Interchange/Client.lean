import RecordStore.Client.Batch
import RecordStore.Client.Transaction
import RecordStore.Interchange.Condition
import RecordStore.Interchange.Store

/-!
# Clients and their requests as JSON
-/

namespace RecordStore.Interchange

open Reading

/-! ### Throttling -/

def readMode : Json → Reading AccessMode
  | .string "read" => .ok .read
  | .string "write" => .ok .write
  | _ => .error "mode expected"

def readThroughput (json : Json) : Reading Throughput := do
  return ⟨← readTableName json, ← optional text json "index",
    ← defaulted readMode .read json "mode"⟩

def readRateLimits (json : Json) : Reading RateLimits := do
  return ⟨← defaulted flag true json "enabled", ← defaulted float 80.0 json "read_percent",
    ← defaulted float 80.0 json "write_percent"⟩

def readUnits (json : Json) (name : String) : Reading Int64 := do
  return Int64.ofInt (← defaulted integer 0 json name)

/-- A number of milliseconds, in nanoseconds. -/
def readDelay (json : Json) (name : String) : Reading Nat := do
  return (← defaulted natural 0 json name) * Session.millisecond

def readRetryPolicy : Json → Reading RetryPolicy
  | .string "default" => .ok .standard
  | .string "unbounded" => .ok .unbounded
  | json => do
    return ⟨← optional natural json "max_attempts", ← readDelay json "initial_ms",
      ← readDelay json "max_ms"⟩

/-- The settings of a client; calls are not limited unless they are asked to be. -/
def readClientConfig (json : Json) : Reading ClientConfig := do
  let limited ← defaulted flag false json "rate_limit"
  return ⟨⟨limited, 80.0, 80.0⟩, ← defaulted flag true json "write_back",
    ← defaulted readRetryPolicy .standard json "retry"⟩

/-! ### Requests -/

def readSaveOptions (json : Json) : Reading SaveOptions := do
  return ⟨← defaulted flag true json "overwrite", ← defaulted flag true json "locking"⟩

def readProjection (json : Json) : Reading (List String) :=
  defaulted (list text) [] json "projection"

def readRecordGet (json : Json) : Reading RecordGet := do
  return ⟨← readTableName json, ← required readKey json "key", ← readProjection json⟩

def readRecordSearch (json : Json) : Reading RecordSearch := do
  return {
    table := ← readTableName json
    index := ← optional text json "index"
    filter := ← optional readCondition json "filter"
    projection := ← readProjection json
    limit := ← optional integer json "limit"
    start := ← optional readItem json "start"
    stopAfter := ← optional natural json "stop_after" }

def readRecordQuery (json : Json) : Reading RecordQuery := do
  return ⟨← readRecordSearch json, ← required readValue json "hash",
    ← optional readTest json "range", ← defaulted flag true json "forward"⟩

def readRecordScan (json : Json) : Reading RecordScan := do
  return ⟨← readRecordSearch json, ← optional integer json "segment",
    ← optional integer json "total_segments"⟩

def readRecordDelete (json : Json) : Reading RecordDelete := do
  let revision ← optional integer json "expected_revision"
  return ⟨← readTableName json, ← required readKey json "key", revision.map Int64.ofInt,
    ← optional readCondition json "condition"⟩

/-- Requests by table; of a repeated table the last requests count. -/
def readByTable {α : Type} (request : Json → Reading α) (json : Json) :
    Reading (List (String × List α)) := do
  return putAll (← list (pair text (list request)) json)

/-! ### Answers -/

def recordsJson (stopAfter : Option Nat) (result : Records) : Json :=
  let seen := if stopAfter.isSome then result.progress else []
  .object [("records", .array (result.records.map recordJson)),
    ("count", .integer result.count.toInt), ("scanned", .integer result.scanned.toInt),
    ("last_key", optionJson itemJson result.lastKey),
    ("capacity", optionJson capacityJson result.capacity),
    ("seen", .array (seen.map fun (count : Nat) => .integer count))]

def tableRecordsJson (found : List (String × List Record)) : Json :=
  .array (found.map fun (table, records) =>
    .array [.string table, .array (records.map recordJson)])

def optionalRecordsJson (records : List (Option Record)) : Json :=
  .array (records.map (optionJson recordJson))

end RecordStore.Interchange
