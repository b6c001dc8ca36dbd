import RecordStore.Client.Session
import RecordStore.Expression.Builder
import RecordStore.Throttling.Retry

/-!
# Clients

A client stores and loads records of the tables of a registry. Its requests are made within a
session.
-/

namespace RecordStore

structure ClientConfig where
  limits : RateLimits
  /-- Whether items that are migrated when they are loaded are stored again. -/
  writesBack : Bool
  retry : RetryPolicy
  deriving Inhabited

structure Client where
  registry : Registry
  config : ClientConfig

namespace Client

def table (client : Client) (name : String) : Except Error TableSchema :=
  client.registry.requireTable name

def acquire (client : Client) (throughput : Throughput) : SessionCall Unit :=
  Session.acquire client.config.limits throughput

def acquireAll (client : Client) (mode : AccessMode) (tables : List String) : SessionCall Unit :=
  Session.acquireAll client.config.limits mode tables

/-- Calls the store when the throughput allows it, and feeds back what the call consumed. Errors of
the call are told the key that it was for. -/
def callWithKey (client : Client) (throughput : Throughput) (key : Item)
    (storeCall : StoreCall ItemAnswer) : SessionCall (Option Item) := do
  client.acquire throughput
  let answer ← tryCatch (Session.call storeCall) fun error => throw (error.withKey key)
  Session.recordConsumed throughput (answer.capacity.bind ConsumedCapacity.units)
  return answer.item

/-- Waits before the unprocessed part of a batch is sent again, or gives up. -/
def awaitRetry (client : Client) (attempt remaining : Nat) : SessionCall Unit :=
  if client.config.retry.allowsRetry attempt then
    Session.sleep (client.config.retry.delay attempt)
  else throw (.unprocessed remaining attempt)

end Client

/-- The condition of a compiled request with its placeholders. -/
def Expression.Compiled.guard (compiled : Compiled) : Guard :=
  ⟨compiled.condition, compiled.names, compiled.values⟩

/-- Reads some paths only, with whatever decoding and migrating the result needs. Without paths
everything is read. -/
def TableSchema.project (table : TableSchema) (paths : List String) : Expression.Building Unit := do
  if !paths.isEmpty then
    paths.forM fun path => do
      Expression.Builder.project (← (table.resolvePath path : Except Error (List String)))
    let needed := [table.keys.hash.wireName, table.versionAttribute] ++
      table.keys.range.toList.map KeyField.wireName ++
      (if table.optimisticLocking then [table.revisionAttribute] else [])
    needed.forM fun name => Expression.Builder.project [name]

end RecordStore
