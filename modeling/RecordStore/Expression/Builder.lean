import RecordStore.Codec.Attribute
import RecordStore.Delta
import RecordStore.Expression.Condition

/-!
# Building requests

The clauses of one request are collected one by one and joined at the end. Paths are given as
the names of stored attributes. Placeholders that a failing step has taken stay taken.
-/

namespace RecordStore.Expression

structure Builder where
  aliases : Aliases
  set : List String
  remove : List String
  add : List String
  delete : List String
  conditions : List String
  keyConditions : List String
  projection : List String
  /-- The number of nested builders made so far. -/
  children : Nat
  deriving Inhabited

/-- The texts of a request with the bindings of their placeholders; what is empty is left out. -/
structure Compiled where
  update : Option String
  condition : Option String
  keyCondition : Option String
  projection : Option String
  names : Option (List (String × String))
  values : Option Item
  deriving DecidableEq, Inhabited

/-- A computation that adds to a request and may fail. -/
abbrev Building := ExceptT Error (StateM Builder)

namespace Builder

def empty (stem : String) : Builder :=
  ⟨.empty stem, [], [], [], [], [], [], [], 0⟩

/-- Lets a computation take placeholders of the builder. -/
def withAliases {α : Type} (computation : Rendering α) : Building α := fun builder =>
  let (outcome, aliases) := computation.run.run builder.aliases
  (outcome, { builder with aliases })

def placeholders (path : List String) : Building String :=
  withAliases (Aliases.path path)

def bound (value : Attribute) : Building String :=
  withAliases (Aliases.value value)

/-- A builder for a nested object, whose stem differs from those of all others. -/
def nested : StateM Builder Builder := fun builder =>
  (empty (builder.aliases.stem ++ "c" ++ toString builder.children ++ "_"),
    { builder with children := builder.children + 1 })

/-! ### Update clauses -/

def addSet (clause : String) : Building Unit :=
  modify fun builder => { builder with set := builder.set ++ [clause] }

def addAdd (clause : String) : Building Unit :=
  modify fun builder => { builder with add := builder.add ++ [clause] }

def addDelete (clause : String) : Building Unit :=
  modify fun builder => { builder with delete := builder.delete ++ [clause] }

/-- Sets an attribute. -/
def setAttribute (path : List String) (value : Attribute) : Building Unit := do
  let path ← placeholders path
  let value ← bound value
  addSet (path ++ " = " ++ value)

def removePath (path : List String) : Building Unit := do
  let path ← placeholders path
  modify fun builder => { builder with remove := builder.remove ++ [path] }

/-- Sets a value of a declared type. -/
def setValue (table : TableSchema) (path : List String) (type : ValueType) (value : Value) :
    Building Unit := do
  setAttribute path (← (Codec.encode table .plain type value : Except Error Attribute))

/-- Sets the value of a field as the field is stored; null removes it. -/
def setField (table : TableSchema) (path : List String) (field : FieldSchema) (value : Value) :
    Building Unit := do
  if value.isNull then removePath path
  else setAttribute path (← (Codec.encodeField table field value : Except Error Attribute))

/-- Adds to a number that counts as zero while it is absent. -/
def increment (path : List String) (amount : Number) (element : ElementType) :
    Building Unit := do
  if !element.isNumeric then throw (.contract (.incrementValue element))
  let place ← placeholders path
  let amount ← bound (.number (amount.narrow element).text)
  if path.length = 1 then addAdd (place ++ " " ++ amount)
  else
    let zero ← bound (.number (Number.zero element).text)
    addSet (place ++ " = if_not_exists(" ++ place ++ ", " ++ zero ++ ") + " ++ amount)

/-- The stored form of a list or set of elements of a declared type. -/
def encodeElements (table : TableSchema) (kind : Kind) (type : ValueType) (elements : List Value) :
    Except Error Attribute := do
  let element ← type.requireElement
  Codec.encode table .plain ⟨kind, some element⟩ (.list elements)

/-- Appends to a list that counts as empty while it is absent. -/
def append (table : TableSchema) (path : List String) (type : ValueType) (items : List Value) :
    Building Unit := do
  if !items.isEmpty then
    let items ← (encodeElements table .list type items : Except Error Attribute)
    let place ← placeholders path
    let empty ← bound (.list [])
    let items ← bound items
    addSet (place ++ " = list_append(if_not_exists(" ++ place ++ ", " ++ empty ++ "), " ++
      items ++ ")")

def addElements (table : TableSchema) (path : List String) (type : ValueType)
    (elements : List Value) : Building Unit := do
  if !elements.isEmpty then
    let elements ← (encodeElements table .set type elements : Except Error Attribute)
    let place ← placeholders path
    addAdd (place ++ " " ++ (← bound elements))

def deleteElements (table : TableSchema) (path : List String) (type : ValueType)
    (elements : List Value) : Building Unit := do
  if !elements.isEmpty then
    let elements ← (encodeElements table .set type elements : Except Error Attribute)
    let place ← placeholders path
    addDelete (place ++ " " ++ (← bound elements))

/-! ### Collections -/

def isEmptyCollection : Value → Bool
  | .null => true
  | .map entries => entries.isEmpty
  | .list items => items.isEmpty
  | .set elements => elements.isEmpty
  | _ => false

/-- Writes each changed entry of a map by itself. -/
def mergeMap (table : TableSchema) (path : List String) (element : ElementType)
    (delta : MapDelta) : Building Unit := do
  delta.updates.forM fun (name, value) =>
    if delta.deletes.contains name then pure ()
    else setValue table (path ++ [name]) (.scalar element) value
  delta.amounts.forM fun (name, amount) =>
    if Entries.contains delta.updates name || delta.deletes.contains name then pure ()
    else increment (path ++ [name]) amount element
  delta.deletes.forM fun name => removePath (path ++ [name])

/-- Writes the changes that turn a collection into its merge with a delta. The merge is written
whole when it keeps nothing of the base or when a set gains and loses elements at once. -/
def mergeCollection (table : TableSchema) (path : List String) (type : ValueType) (base : Value)
    (delta : CollectionDelta) : Building Unit := do
  if !delta.isEmpty then
    let element ← (type.requireElement : Except Error ElementType)
    let merged ← (delta.merge base element : Except Error Value)
    if delta.clears || isEmptyCollection base then setValue table path type merged
    else
      match delta with
      | .map delta => mergeMap table path element delta
      | .set delta =>
        if !delta.adds.isEmpty && !delta.deletes.isEmpty then setValue table path type merged
        else
          addElements table path type delta.adds
          deleteElements table path type delta.deletes
      | .list delta => append table path type delta.appends

/-! ### Conditions and projections -/

def addCondition (clause : String) : Building Unit :=
  modify fun builder => { builder with conditions := builder.conditions ++ [clause] }

def requireCondition (table : TableSchema) (condition : Condition) : Building Unit := do
  addCondition (← withAliases (condition.renderTop table))

/-- Adds a condition on the key that a query looks for. -/
def requireKey (path : List String) (test : Test) : Building Unit := do
  if !test.isKeyTest then throw (.contract (.keyCondition path))
  let path ← placeholders path
  let clause ← withAliases (test.render path)
  modify fun builder => { builder with keyConditions := builder.keyConditions ++ [clause] }

def requireEqual (path : List String) (value : Attribute) : Building Unit := do
  let path ← placeholders path
  let value ← bound value
  addCondition (path ++ " = " ++ value)

def requireAbsent (path : List String) : Building Unit := do
  let path ← placeholders path
  addCondition ("attribute_not_exists(" ++ path ++ ")")

def requireAbsentOrLess (path : List String) (value : Attribute) : Building Unit := do
  let path ← placeholders path
  let value ← bound value
  addCondition ("(attribute_not_exists(" ++ path ++ ") OR " ++ path ++ " < " ++ value ++ ")")

/-- The paths with one more, unless it is among them. -/
def addPath (paths : List String) (path : String) : List String :=
  if paths.contains path then paths else paths ++ [path]

def project (path : List String) : Building Unit := do
  let path ← placeholders path
  modify fun builder => { builder with projection := addPath builder.projection path }

/-! ### The whole request -/

/-- Takes over the clauses and placeholders of another builder. -/
def merge (other : Builder) : Building Unit := do
  withAliases (Aliases.merge other.aliases)
  modify fun builder => { builder with
    set := builder.set ++ other.set
    remove := builder.remove ++ other.remove
    add := builder.add ++ other.add
    delete := builder.delete ++ other.delete
    conditions := builder.conditions ++ other.conditions
    keyConditions := builder.keyConditions ++ other.keyConditions
    projection := other.projection.foldl addPath builder.projection }

def hasUpdates (builder : Builder) : Bool :=
  !(builder.set.isEmpty && builder.remove.isEmpty && builder.add.isEmpty && builder.delete.isEmpty)

/-- The clauses under a keyword, none when there are none. -/
def group (keyword : String) (clauses : List String) : List String :=
  if clauses.isEmpty then [] else [keyword ++ " " ++ ", ".intercalate clauses]

def joined (separator : String) (texts : List String) : Option String :=
  if texts.isEmpty then none else some (separator.intercalate texts)

def compile (builder : Builder) : Compiled where
  update := joined " " (group "SET" builder.set ++ group "REMOVE" builder.remove ++
    group "ADD" builder.add ++ group "DELETE" builder.delete)
  condition := joined " AND " builder.conditions
  keyCondition := joined " AND " builder.keyConditions
  projection := joined ", " builder.projection
  names := if builder.aliases.names.isEmpty then none else some builder.aliases.names
  values := if builder.aliases.values.isEmpty then none else some builder.aliases.values

/-- What a computation on a new builder yields. -/
def run {α : Type} (stem : String) (building : Building α) : Except Error (α × Builder) :=
  match building.run.run (empty stem) with
  | (.ok result, builder) => .ok (result, builder)
  | (.error error, _) => .error error

end Builder

end RecordStore.Expression
