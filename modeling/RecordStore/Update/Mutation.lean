import RecordStore.Delta
import RecordStore.Schema.Table

/-!
# Pending changes to records

The changes to an object are kept by field, in the order in which the fields were first touched. A
change that fails may still have touched its field.
-/

namespace RecordStore

/-- The pending change to one field. -/
inductive FieldMutation where
  /-- The whole value is replaced, removed or added to. -/
  | scalar (delta : ScalarDelta)
  | collection (delta : CollectionDelta)
  /-- The fields of a nested object change. -/
  | object (base : Record) (mutations : List (String × FieldMutation))
  deriving Inhabited, Repr

/-- The pending changes to an object. -/
structure ObjectUpdate where
  /-- The record that the changes apply to. -/
  base : Record
  /-- Whether the record is stored by itself, under its key. -/
  isRoot : Bool
  mutations : List (String × FieldMutation)
  deriving Inhabited, Repr

/-- A computation that adds changes and may fail on the way. -/
abbrev Updating := ExceptT Error (StateM ObjectUpdate)

/-! ### Empty changes -/

mutual

def FieldMutation.isEmpty : FieldMutation → Bool
  | .scalar delta => delta.isEmpty
  | .collection delta => delta.isEmpty
  | .object _ mutations => FieldMutation.areEmpty mutations

def FieldMutation.areEmpty : List (String × FieldMutation) → Bool
  | [] => true
  | (_, mutation) :: rest => mutation.isEmpty && areEmpty rest

end

/-! ### Deltas after one more change -/

/-- Adds an amount to what is pending for a scalar. A removed value counts as zero. -/
def ScalarDelta.increment (delta : ScalarDelta) (amount : Number) (element : ElementType) :
    Except Error ScalarDelta :=
  if delta.remove then .ok (.ofSet (.number ((Number.zero element).add amount element)))
  else
    match delta.set, delta.amount with
    | some value, _ => do
      return { delta with set := some (← addAmount value amount element) }
    | .none, some pending => .ok { delta with amount := some (pending.add amount element) }
    | .none, .none => .ok { delta with amount := some (amount.narrow element) }

namespace MapDelta

def putEntry (delta : MapDelta) (key : String) (value : Value) : MapDelta :=
  { delta with
    deletes := delta.deletes.erase key
    amounts := Entries.erase delta.amounts key
    updates := Entries.put delta.updates key value }

/-- Adds an amount to what is pending for an entry. A deleted entry counts as zero. -/
def incrementEntry (delta : MapDelta) (key : String) (amount : Number) (element : ElementType) :
    Except Error MapDelta :=
  if delta.deletes.contains key then
    .ok { delta with
      deletes := delta.deletes.erase key
      updates := Entries.put delta.updates key
        (.number ((Number.zero element).add amount element)) }
  else
    match Entries.find? delta.updates key, Entries.find? delta.amounts key with
    | some value, _ => do
      let value ← addAmount value amount element
      return { delta with updates := Entries.put delta.updates key value }
    | .none, some pending =>
      .ok { delta with amounts := Entries.put delta.amounts key (pending.add amount element) }
    | .none, .none =>
      .ok { delta with amounts := Entries.put delta.amounts key (amount.narrow element) }

def deleteEntry (delta : MapDelta) (key : String) : MapDelta :=
  { delta with
    updates := Entries.erase delta.updates key
    amounts := Entries.erase delta.amounts key
    deletes := if delta.deletes.contains key then delta.deletes else delta.deletes ++ [key] }

end MapDelta

namespace SetDelta

def addElement (delta : SetDelta) (value : Value) : SetDelta :=
  { delta with
    deletes := delta.deletes.filter fun deleted => !(deleted == value)
    adds := adjoin delta.adds value }

def deleteElement (delta : SetDelta) (value : Value) : SetDelta :=
  { delta with
    adds := delta.adds.filter fun added => !(added == value)
    deletes := adjoin delta.deletes value }

end SetDelta

/-! ### Changes by field -/

namespace ObjectUpdate

def mutation? (update : ObjectUpdate) (name : String) : Option FieldMutation :=
  Entries.find? update.mutations name

def setMutation (name : String) (mutation : FieldMutation) : Updating Unit :=
  modify fun update => { update with mutations := Entries.put update.mutations name mutation }

def isKey (table : TableSchema) (name : String) : Bool :=
  name = table.keys.hash.field || table.keys.range.any fun range => name = range.field

/-- A declared field that may change; the keys of stored records do not. -/
def fieldOf (table : TableSchema) (name : String) : Updating FieldSchema := do
  let update ← get
  let type ← (table.requireType update.base.typeName : Except Error TypeSchema)
  let field ← (type.requireField name : Except Error FieldSchema)
  if update.isRoot && isKey table field.name then
    throw (.contract (.keyField name table.name))
  return field

/-- Replaces the whole value of a field; null removes it. -/
def set (table : TableSchema) (name : String) (value : Value) : Updating Unit := do
  let field ← fieldOf table name
  setMutation field.name (.scalar (if value.isNull then .ofRemove else .ofSet value))

def remove (table : TableSchema) (name : String) : Updating Unit :=
  set table name .null

/-- Adds to a number, where an absent one counts as zero. -/
def increment (table : TableSchema) (name : String) (amount : Number) : Updating Unit := do
  let field ← fieldOf table name
  let element ← (field.type.requireElement : Except Error ElementType)
  if field.type.kind ≠ .scalar || !element.isNumeric then
    throw (.contract (.incrementField name field.type))
  match (← get).mutation? field.name with
  | none =>
    setMutation field.name
      (.scalar (← (ScalarDelta.none.increment amount element : Except Error ScalarDelta)))
  | some (.scalar delta) =>
    setMutation field.name
      (.scalar (← (delta.increment amount element : Except Error ScalarDelta)))
  | some _ => throw (.contract (.nonScalarMutation name))

/-- Changes a collection of the expected kind. When the field was replaced whole, the replacement
changes instead. -/
def changeCollection (table : TableSchema) (name : String) (kind : Kind) (empty : CollectionDelta)
    (change : CollectionDelta → ElementType → Except Error CollectionDelta) : Updating Unit := do
  let field ← fieldOf table name
  if field.type.kind ≠ kind then
    throw (.contract (.collectionKind name field.type kind))
  let element ← (field.type.requireElement : Except Error ElementType)
  match (← get).mutation? field.name with
  | none =>
    setMutation field.name (.collection empty)
    setMutation field.name
      (.collection (← (change empty element : Except Error CollectionDelta)))
  | some (.collection delta) =>
    setMutation field.name
      (.collection (← (change delta element : Except Error CollectionDelta)))
  | some (.scalar whole) =>
    let delta ← (change empty element : Except Error CollectionDelta)
    let value ← (delta.merge (whole.set.getD .null) element : Except Error Value)
    setMutation field.name (.scalar (.ofSet value))
  | some (.object ..) => throw (.contract (.notACollection name))

def changeMap (table : TableSchema) (name : String)
    (change : MapDelta → ElementType → Except Error MapDelta) : Updating Unit :=
  changeCollection table name .map (.map .none) fun delta element =>
    match delta with
    | .map delta => (change delta element).map .map
    | other => .ok other

def changeSet (table : TableSchema) (name : String) (change : SetDelta → SetDelta) :
    Updating Unit :=
  changeCollection table name .set (.set .none) fun delta _ =>
    match delta with
    | .set delta => .ok (.set (change delta))
    | other => .ok other

def putEntry (table : TableSchema) (name key : String) (value : Value) : Updating Unit :=
  changeMap table name fun delta _ => .ok (delta.putEntry key value)

/-- Adds to an entry of a map of numbers, where an absent one counts as zero. -/
def incrementEntry (table : TableSchema) (name key : String) (amount : Number) : Updating Unit :=
  changeMap table name fun delta element =>
    if element.isNumeric then delta.incrementEntry key amount element
    else .error (.contract (.incrementEntry element))

def deleteEntry (table : TableSchema) (name key : String) : Updating Unit :=
  changeMap table name fun delta _ => .ok (delta.deleteEntry key)

def addElement (table : TableSchema) (name : String) (value : Value) : Updating Unit :=
  changeSet table name fun delta => delta.addElement value

def deleteElement (table : TableSchema) (name : String) (value : Value) : Updating Unit :=
  changeSet table name fun delta => delta.deleteElement value

def append (table : TableSchema) (name : String) (values : List Value) : Updating Unit :=
  changeCollection table name .list (.list .none) fun delta _ =>
    match delta with
    | .list delta => .ok (.list { delta with appends := delta.appends ++ values })
    | other => .ok other

/-- Discards every element of a collection, pending changes included. -/
def clear (table : TableSchema) (name : String) : Updating Unit := do
  let field ← fieldOf table name
  match CollectionDelta.none? field.type.kind with
  | some delta => setMutation field.name (.collection delta.clearing)
  | none => throw (.contract (.clearScalar name))

/-! ### Nested objects -/

/-- The record that a nested object holds, an empty one while it is absent. -/
def nestedBase (update : ObjectUpdate) (name typeName : String) : Record :=
  ((update.base.get? name).bind Value.record?).getD (.empty typeName)

/-- The pending changes of a nested object, which begin when it is first entered. -/
def enter (table : TableSchema) (name : String) : Updating ObjectUpdate := do
  let field ← fieldOf table name
  match field.type.kind, field.type.element with
  | .scalar, some (.object typeName) =>
    let base := (← get).nestedBase field.name typeName
    match (← get).mutation? field.name with
    | none =>
      let _ ← (table.requireType base.typeName : Except Error TypeSchema)
      setMutation field.name (.object base [])
      return ⟨base, false, []⟩
    | some (.object base mutations) => return ⟨base, false, mutations⟩
    | some _ => throw (.contract (.replacedWhole name))
  | _, _ => throw (.contract (.notANestedObject name))

/-- Makes changes to the object that a path of names leads to. -/
def within (table : TableSchema) (path : List String) (change : Updating Unit) : Updating Unit :=
  match path with
  | [] => change
  | name :: rest => do
    let nested ← enter table name
    let (outcome, nested) := (within table rest change).run.run nested
    setMutation name (.object nested.base nested.mutations)
    match outcome with
    | .ok () => return ()
    | .error error => throw error

end ObjectUpdate

/-! ### Changes as values -/

inductive Mutation where
  | set (value : Value)
  | remove
  | increment (amount : Number)
  | putEntry (key : String) (value : Value)
  | incrementEntry (key : String) (amount : Number)
  | deleteEntry (key : String)
  | addElement (value : Value)
  | deleteElement (value : Value)
  | append (values : List Value)
  | clear
  /-- Enters a nested object and changes nothing. -/
  | enter
  deriving Inhabited, Repr

/-- A change to a field of the object that a path of names leads to. -/
structure FieldChange where
  path : List String
  field : String
  mutation : Mutation
  deriving Inhabited, Repr

def Mutation.make (table : TableSchema) (name : String) : Mutation → Updating Unit
  | .set value => ObjectUpdate.set table name value
  | .remove => ObjectUpdate.remove table name
  | .increment amount => ObjectUpdate.increment table name amount
  | .putEntry key value => ObjectUpdate.putEntry table name key value
  | .incrementEntry key amount => ObjectUpdate.incrementEntry table name key amount
  | .deleteEntry key => ObjectUpdate.deleteEntry table name key
  | .addElement value => ObjectUpdate.addElement table name value
  | .deleteElement value => ObjectUpdate.deleteElement table name value
  | .append values => ObjectUpdate.append table name values
  | .clear => ObjectUpdate.clear table name
  | .enter => do
    let _ ← ObjectUpdate.enter table name

def FieldChange.make (table : TableSchema) (change : FieldChange) : Updating Unit :=
  ObjectUpdate.within table change.path (change.mutation.make table change.field)

end RecordStore
