import RecordStore.Store.Page

/-!
# Requests to a store

One structure for what each call of a store asks for and one for what it answers.
-/

namespace RecordStore

open Expression (Bindings)

/-- The capacity that a call consumed. -/
structure ConsumedCapacity where
  table : Option String
  units : Option Float
  readUnits : Option Float
  writeUnits : Option Float
  deriving Inhabited

/-- Which item a write answers. -/
inductive Returned where
  | nothing
  | old
  | new
  deriving DecidableEq, Repr, Inhabited

def Returned.select (returned : Returned) (old new : Option Item) : Option Item :=
  match returned with
  | .nothing => none
  | .old => old
  | .new => new

/-- The condition of a write with the placeholders of all its expressions. -/
structure Guard where
  condition : Option String
  names : Option (List (String × String))
  values : Option Item
  deriving Inhabited

def Guard.bindings (guard : Guard) : Bindings :=
  ⟨guard.names.getD [], guard.values.getD []⟩

/-- How a write answers. -/
structure WriteOptions where
  returned : Returned
  reportsCapacity : Bool
  deriving Inhabited

structure GetRequest where
  table : String
  key : Option Item
  projection : Option String
  names : Option (List (String × String))
  reportsCapacity : Bool
  deriving Inhabited

structure PutRequest where
  table : String
  item : Item
  guard : Guard
  options : WriteOptions
  deriving Inhabited

structure UpdateRequest where
  table : String
  key : Option Item
  update : Option String
  guard : Guard
  options : WriteOptions
  deriving Inhabited

structure DeleteRequest where
  table : String
  key : Option Item
  guard : Guard
  options : WriteOptions
  deriving Inhabited

/-- What queries and scans have in common. -/
structure ReadRequest where
  table : String
  index : Option String
  filter : Option String
  projection : Option String
  names : Option (List (String × String))
  values : Option Item
  start : Option Item
  limit : Option Int
  reportsCapacity : Bool
  deriving Inhabited

def ReadRequest.page (request : ReadRequest) : PageRequest where
  index := request.index
  filter := request.filter
  projection := request.projection
  bindings := ⟨request.names.getD [], request.values.getD []⟩
  start := request.start
  limit := request.limit

structure QueryRequest where
  read : ReadRequest
  keyCondition : Option String
  forward : Bool
  deriving Inhabited

structure ScanRequest where
  read : ReadRequest
  segment : Option Int
  total : Option Int
  deriving Inhabited

/-- The keys that a batch reads from one table. -/
structure BatchKeys where
  keys : List Item
  projection : Option String
  names : Option (List (String × String))
  deriving Inhabited

/-- One write of a batch, which must be either a put or a delete. -/
structure BatchEntry where
  put : Option Item
  delete : Option Item
  deriving Inhabited

/-- One read of a transaction. -/
structure TransactGet where
  table : String
  key : Item
  projection : Option String
  names : Option (List (String × String))
  deriving Inhabited

/-- One action of a transaction. -/
inductive TransactAction where
  | put (table : String) (item : Item) (guard : Guard)
  | update (table : String) (key : Item) (expression : String) (guard : Guard)
  | delete (table : String) (key : Item) (guard : Guard)
  | check (table : String) (key : Item) (condition : String) (guard : Guard)

def TransactAction.table : TransactAction → String
  | .put table .. => table
  | .update table .. => table
  | .delete table .. => table
  | .check table .. => table

structure ItemAnswer where
  item : Option Item
  capacity : Option ConsumedCapacity

structure PageAnswer where
  page : Page
  capacity : Option ConsumedCapacity

structure BatchGetAnswer where
  responses : List (String × List Item)
  unprocessed : List (String × BatchKeys)
  capacities : List ConsumedCapacity

structure BatchWriteAnswer where
  unprocessed : List (String × List BatchEntry)
  capacities : List ConsumedCapacity

/-- The provisioned throughput of a table and of its indexes, the same for reads and writes. -/
structure TableDetails where
  table : String
  units : Int64
  indexes : List (String × Int64)

end RecordStore
