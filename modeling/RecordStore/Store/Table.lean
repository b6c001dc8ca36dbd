import RecordStore.Expression.Parser
import RecordStore.Schema.Table

/-!
# Stored tables

A table holds at most one item under each key, in the order in which the keys first came. A write
whose condition does not hold is rejected and changes nothing.
-/

namespace RecordStore

open Expression (Fault Bindings meets)

/-- The names of the attributes that make up a key. -/
structure KeyNames where
  hash : String
  range : Option String
  deriving DecidableEq, Repr, Inhabited

namespace KeyNames

def ofSchema (keys : KeySchema) : KeyNames :=
  ⟨keys.hash.wireName, keys.range.map KeyField.wireName⟩

def attributes (keys : KeyNames) : List String :=
  keys.hash :: keys.range.toList

/-- The key attributes of an item, which must have them all. -/
def keyOf? (keys : KeyNames) (item : Item) : Option Item := do
  let entries ← keys.attributes.mapM fun name =>
    (Item.get? item name).map fun value => (name, value)
  return Item.ofEntries entries

end KeyNames

/-- Whether an item has all attributes of a key. -/
def Item.hasKey (item key : Item) : Bool :=
  key.all fun (name, value) => Item.get? item name = some value

structure StoredTable where
  keys : KeyNames
  /-- The keys of the secondary indexes by name. -/
  indexes : List (String × KeyNames)
  items : List Item
  /-- The provisioned throughput. -/
  units : Int64
  deriving Inhabited

/-- What came of a conditional write. -/
inductive Outcome (α : Type) where
  | applied (result : α)
  | rejected

namespace StoredTable

/-- The key attributes of a key, which may have no other ones. -/
def exactKey (table : StoredTable) (key : Item) : Except Fault Item :=
  match table.keys.keyOf? key with
  | some exact => if exact.length = key.length then .ok exact else .error (.wrongKey key)
  | none => .error (.wrongKey key)

def requireIndex (table : StoredTable) (name : String) : Except Fault KeyNames :=
  match Entries.find? table.indexes name with
  | some keys => .ok keys
  | none => .error (.unknownIndex name)

/-- The item under a key. -/
def find? (table : StoredTable) (key : Item) : Option Item :=
  table.items.find? fun item => item.hasKey key

/-- The items with one stored under a key, in the place of the item that was there. -/
def replace (key item : Item) : List Item → List Item
  | [] => [item]
  | held :: rest => if held.hasKey key then item :: rest else held :: replace key item rest

def store (table : StoredTable) (key item : Item) : StoredTable :=
  { table with items := replace key item table.items }

/-- The table without the item under a key. -/
def erase (table : StoredTable) (key : Item) : StoredTable :=
  { table with items := table.items.eraseP fun item => item.hasKey key }

/-! ### Writes

Conditions on a key under which nothing is stored are tested on an item without attributes. -/

/-- Stores a whole item and yields the one that it replaces. -/
def put (table : StoredTable) (item : Item) (condition : Option String) (bindings : Bindings) :
    Except Fault (Outcome (StoredTable × Option Item)) := do
  match table.keys.keyOf? item with
  | none => throw .missingKeyAttributes
  | some key =>
    let held := table.find? key
    if ← meets (held.getD []) condition bindings then
      return .applied (table.store key item, held)
    else return .rejected

/-- What an update found and what it left. -/
structure Updated where
  old : Option Item
  new : Item

/-- Updates the item under a key, which begins with its key attributes when it is new. -/
def update (table : StoredTable) (key : Item) (expression : String) (condition : Option String)
    (bindings : Bindings) : Except Fault (Outcome (StoredTable × Updated)) := do
  let key ← table.exactKey key
  let held := table.find? key
  if ← meets (held.getD []) condition bindings then
    let updated ← Expression.applyUpdate (held.getD key) expression bindings
    if table.keys.keyOf? updated ≠ some key then throw .keyChanged
    return .applied (table.store key updated, ⟨held, updated⟩)
  else return .rejected

/-- Removes the item under a key and yields it. -/
def delete (table : StoredTable) (key : Item) (condition : Option String) (bindings : Bindings) :
    Except Fault (Outcome (StoredTable × Option Item)) := do
  let key ← table.exactKey key
  let held := table.find? key
  if ← meets (held.getD []) condition bindings then return .applied (table.erase key, held)
  else return .rejected

/-- Tests a condition and writes nothing. -/
def check (table : StoredTable) (key : Item) (condition : String) (bindings : Bindings) :
    Except Fault (Outcome (StoredTable × Unit)) := do
  let key ← table.exactKey key
  if ← meets ((table.find? key).getD []) (some condition) bindings then
    return .applied (table, ())
  else return .rejected

end StoredTable

end RecordStore
