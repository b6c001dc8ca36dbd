import RecordStore.Proofs.Record.Same
import RecordStore.Proofs.Update.Delta
import RecordStore.Update.View

/-!
# Changes made at once

What changes mean when nothing is left pending: each of them is made on the values that a record
holds, one after another.
-/

namespace RecordStore

/-! ### Values of fields -/

namespace Value

/-- The entries of a map, none of them while it is absent. -/
def mapEntries : Value → Except Error (List (String × Value))
  | .null => .ok []
  | .map entries => .ok entries
  | other => .error (.codec (.unexpectedShape "map" other.shape))

/-- The elements of a set, which may be given as a list; none of them while it is absent. -/
def setElements : Value → Except Error (List Value)
  | .null => .ok []
  | .set elements => .ok elements
  | .list elements => .ok elements
  | other => .error (.codec (.unexpectedShape "set" other.shape))

/-- The items of a list, none of them while it is absent. -/
def listItems : Value → Except Error (List Value)
  | .null => .ok []
  | .list items => .ok items
  | other => .error (.codec (.unexpectedShape "list" other.shape))

end Value

def Kind.emptyValue? : Kind → Option Value
  | .scalar => none
  | .map => some (.map [])
  | .set => some (.set [])
  | .list => some (.list [])

/-- What a mutation makes of the value of a field, null while it is absent. -/
def Mutation.perform (field : FieldSchema) (value : Value) : Mutation → Except Error Value
  | .set replacement => .ok replacement
  | .remove => .ok .null
  | .increment amount => do addAmount value amount (← field.type.requireElement)
  | .putEntry key entry => do return .map (Entries.put (← value.mapEntries) key entry)
  | .incrementEntry key amount => do
    let entries ← value.mapEntries
    let held := (Entries.find? entries key).getD .null
    return .map (Entries.put entries key (← addAmount held amount (← field.type.requireElement)))
  | .deleteEntry key => do return .map (Entries.erase (← value.mapEntries) key)
  | .addElement element => do return .set (SetDelta.adjoin (← value.setElements) element)
  | .deleteElement element => do
    return .set ((← value.setElements).filter fun held => !(element == held))
  | .append items => do return .list ((← value.listItems) ++ items)
  | .clear =>
    match field.type.kind.emptyValue? with
    | some empty => .ok empty
    | none => .error (.contract (.clearScalar field.name))
  | .enter => .ok value

/-! ### Objects -/

/-- The object that a field holds, an empty one while it is absent. -/
def Record.objectAt (record : Record) (name typeName : String) : Record :=
  ((record.get? name).bind Value.record?).getD (.empty typeName)

/-- An object while changes are made on it: what its fields hold, and what they show. A persisted
field that a change leaves absent holds nothing and shows its absent value. -/
structure Execution where
  held : Record
  shown : Record
  deriving Inhabited

namespace Execution

def start (base : Record) : Execution :=
  ⟨base, base⟩

def fieldOf (table : TableSchema) (state : Execution) (name : String) :
    Except Error FieldSchema := do
  (← table.requireType state.held.typeName).requireField name

/-- The object that a field holds, as one of its own. -/
def nested (state : Execution) (name typeName : String) : Execution :=
  ⟨state.held.objectAt name typeName, state.shown.objectAt name typeName⟩

/-- The object with a field that holds one value and shows another. -/
def write (state : Execution) (name : String) (held shown : Value) : Execution :=
  ⟨state.held.set name held, state.shown.set name shown⟩

/-- Makes a change of the object that a path of names leads to. Objects that are absent on the way
begin empty. -/
def within (table : TableSchema) (change : Execution → Except Error Execution)
    (state : Execution) : (path : List String) → Except Error Execution
  | [] => change state
  | name :: rest => do
    let field ← state.fieldOf table name
    match field.type.kind, field.type.element with
    | .scalar, some (.object typeName) => do
      let nested ← within table change (state.nested name typeName) rest
      return state.write name nested.held.toValue nested.shown.toValue
    | _, _ => throw (.contract (.notANestedObject name))

def perform (table : TableSchema) (name : String) (mutation : Mutation) (state : Execution) :
    Except Error Execution :=
  match mutation with
  | .enter => state.within table .ok [name]
  | mutation => do
    let field ← state.fieldOf table name
    let value ← mutation.perform field ((state.held.get? name).getD .null)
    return state.write name value (field.settled value)

end Execution

def FieldChange.perform (table : TableSchema) (change : FieldChange) (state : Execution) :
    Except Error Execution :=
  state.within table (Execution.perform table change.field change.mutation) change.path

/-! ### Records of declared types -/

namespace TableSchema

def fieldOf? (table : TableSchema) (typeName name : String) : Option FieldSchema :=
  (table.type? typeName).bind fun type => type.field? name

/-- The declared field of the object that a path of names leads to. -/
def fieldAt? (table : TableSchema) (typeName : String) (path : List String) (name : String) :
    Option FieldSchema :=
  match path with
  | [] => table.fieldOf? typeName name
  | first :: rest =>
    match (table.fieldOf? typeName first).bind fun field => field.type.element with
    | some (.object nested) => table.fieldAt? nested rest name
    | _ => none

end TableSchema

/-- Values of a declared type. Numbers are integral, and no element of a set is repeated. -/
inductive Conforms (table : TableSchema) : ValueType → Value → Prop where
  | string (text : String) : Conforms table (.scalar .string) (.string text)
  | boolean (value : Bool) : Conforms table (.scalar .boolean) (.boolean value)
  | binary (bytes : List UInt8) : Conforms table (.scalar .binary) (.binary bytes)
  | number {element : ElementType} (whole : element.IsWhole) (value : Int64) :
    Conforms table (.scalar element) (.number (.integer value))
  | object {typeName : String} {fields : List (String × Value)} {revision : Int64}
    (names : (Entries.names fields).Nodup)
    (known : ∀ name ∈ Entries.names fields, (table.fieldOf? typeName name).isSome)
    (values : ∀ name value field, (name, value) ∈ fields →
      table.fieldOf? typeName name = some field → Conforms table field.type value) :
    Conforms table (.scalar (.object typeName)) (.object typeName fields revision)
  | list {element : ElementType} {items : List Value}
    (values : ∀ item ∈ items, Conforms table (.scalar element) item) :
    Conforms table ⟨.list, some element⟩ (.list items)
  | map {element : ElementType} {entries : List (String × Value)}
    (names : (Entries.names entries).Nodup)
    (values : ∀ name value, (name, value) ∈ entries → Conforms table (.scalar element) value) :
    Conforms table ⟨.map, some element⟩ (.map entries)
  | set {element : ElementType} {elements : List Value} (distinct : Value.Distinct elements)
    (values : ∀ item ∈ elements, Conforms table (.scalar element) item) :
    Conforms table ⟨.set, some element⟩ (.set elements)
  /-- Whatever its kind, a type that declares no element tells nothing of its values. -/
  | undeclared {kind : Kind} {value : Value} (present : value.isNull = false)
    (formed : value.WellFormed) : Conforms table ⟨kind, none⟩ value

def Record.Conforms (table : TableSchema) (record : Record) : Prop :=
  RecordStore.Conforms table (.scalar (.object record.typeName)) record.toValue

/-- Amounts are added to integral numbers, and the elements of sets are well-formed. -/
def Mutation.IsIntegral (field : FieldSchema) : Mutation → Prop
  | .increment _ | .incrementEntry _ _ => ∀ element ∈ field.type.element, element.IsWhole
  | .addElement value | .deleteElement value => value.WellFormed
  | _ => True

/-- A change of an object whose amounts are integral. -/
def FieldChange.IsIntegral (table : TableSchema) (typeName : String) (change : FieldChange) : Prop :=
  ∀ field ∈ table.fieldAt? typeName change.path change.field, change.mutation.IsIntegral field

end RecordStore
