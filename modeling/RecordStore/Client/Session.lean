import RecordStore.Store.Call
import RecordStore.Throttling.Limiter

/-!
# Sessions

A session is a store in use: the store itself, the time that has passed and one limiter for each
throughput in demand. Time passes only while a call waits. A computation on a session yields its
answer or error together with the session as it is afterwards.
-/

namespace RecordStore

inductive AccessMode where
  | read
  | write
  deriving DecidableEq, Repr, Inhabited

/-- The capacity of a table, or of one of its indexes, for reads or for writes. -/
structure Throughput where
  table : String
  index : Option String
  mode : AccessMode
  deriving DecidableEq, Repr, Inhabited

/-- The shares of the provisioned capacity that may be used. -/
structure RateLimits where
  enabled : Bool
  readPercent : Float
  writePercent : Float
  deriving Inhabited

def RateLimits.percent (limits : RateLimits) : AccessMode → Float
  | .read => limits.readPercent
  | .write => limits.writePercent

structure Session where
  store : Store
  limiters : List (Throughput × Limiter)
  /-- The time since the session began, in nanoseconds. -/
  clock : Nat

abbrev SessionCall := ExceptT Error (StateM Session)

namespace Session

def start (store : Store) : Session :=
  ⟨store, [], 0⟩

def limiter? (session : Session) (throughput : Throughput) : Option Limiter :=
  (session.limiters.find? fun (held, _) => held = throughput).map Prod.snd

def setLimiter (session : Session) (throughput : Throughput) (limiter : Limiter) : Session :=
  { session with
    limiters := (throughput, limiter) ::
      session.limiters.filter fun (held, _) => held ≠ throughput }

/-- Calls the store. -/
def call {α : Type} (storeCall : StoreCall α) : SessionCall α := fun session =>
  let (outcome, store) := storeCall.run.run session.store
  (outcome, { session with store })

/-- A millisecond, in nanoseconds. -/
def millisecond : Nat := 1000000

/-- Lets time pass. A wait ends with a whole millisecond. -/
def sleep (duration : Nat) : SessionCall Unit :=
  if duration = 0 then pure ()
  else modify fun session => { session with
    clock := (session.clock + duration + millisecond - 1) / millisecond * millisecond }

/-- The provisioned units of a throughput. What is not an index has the units of its table. -/
def provisionedUnits (throughput : Throughput) : SessionCall Int64 := do
  let details ← call (Store.describeTable throughput.table)
  return (throughput.index.bind (Entries.find? details.indexes)).getD details.units

/-- Makes the limiter of a throughput when it is first needed. -/
def ensureLimiter (limits : RateLimits) (throughput : Throughput) : SessionCall Unit := do
  if ((← get).limiter? throughput).isNone then
    let units ← provisionedUnits throughput
    modify fun session => session.setLimiter throughput
      (.ofProvisioned units (limits.percent throughput.mode) true session.clock)

/-- Takes the permits of a call and waits for them. -/
def takePermits (throughput : Throughput) : SessionCall Unit := do
  let session ← get
  match session.limiter? throughput with
  | some limiter =>
    let (wait, limiter) := limiter.reserve session.clock
    set (session.setLimiter throughput limiter)
    sleep wait
  | none => return ()

/-- Waits until a call may be made, when calls are limited at all. -/
def acquire (limits : RateLimits) (throughput : Throughput) : SessionCall Unit := do
  if limits.enabled then
    ensureLimiter limits throughput
    takePermits throughput

/-- Waits for several tables, one after another. -/
def acquireAll (limits : RateLimits) (mode : AccessMode) (tables : List String) :
    SessionCall Unit :=
  tables.eraseDups.forM fun table => acquire limits ⟨table, none, mode⟩

/-- Feeds the units that a call consumed back to its limiter. -/
def recordConsumed (throughput : Throughput) (units : Option Float) : SessionCall Unit :=
  modify fun session =>
    match units, session.limiter? throughput with
    | some units, some limiter => session.setLimiter throughput (limiter.recordConsumed units)
    | _, _ => session

/-- Feeds the capacities of a call on several tables back to their limiters. -/
def recordAll (mode : AccessMode) (capacities : List ConsumedCapacity) : SessionCall Unit :=
  capacities.forM fun capacity =>
    match capacity.table with
    | some table => recordConsumed ⟨table, none, mode⟩ capacity.units
    | none => pure ()

end Session

end RecordStore
