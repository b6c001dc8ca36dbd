import RecordStore.Json.Parser
import RecordStore.Schema.Table

/-!
# Values as JSON

Objects are written with the logical names of their fields, members ascending. Reading rebuilds from
the declared types what the written form leaves out: sets, bytes, maps and the types of objects.
-/

namespace RecordStore.Codec

/-- Which fields of objects are written. -/
inductive Selection where
  | all
  /-- The fields that take part in exports. -/
  | exported
  /-- The fields that are stored. -/
  | stored
  deriving DecidableEq, Repr

def Selection.includes : Selection → FieldSchema → Bool
  | .all, _ => true
  | .exported, field => field.serialize
  | .stored, field => field.persist

/-! ### Writing -/

/-- The members of an object that the type declares and the selection includes. -/
def selectMembers (selection : Selection) (held : List (String × Except Error Json)) :
    (fields : List FieldSchema) → Except Error (List (String × Json))
  | [] => .ok []
  | field :: fields => do
    match Entries.find? held field.name with
    | some member =>
      if selection.includes field then
        let member ← member
        let members ← selectMembers selection held fields
        return (field.name, member) :: members
      else selectMembers selection held fields
    | none => selectMembers selection held fields

mutual

def toJson (table : TableSchema) (selection : Selection) : Value → Except Error Json
  | .null => .ok .null
  | .boolean value => .ok (.boolean value)
  | .number (.integer value) => .ok (.integer value.toInt)
  | .number (.float value) => .ok (if value.isFinite then .float value else .null)
  | .string text => .ok (.string text)
  | .binary bytes => .ok (.array (bytes.map fun byte => .integer byte.toNat))
  | .object typeName fields _ => do
    let type ← table.requireType typeName
    let members ← selectMembers selection (memberJsons table selection fields) type.fields
    return .object (Entries.sorted members)
  | .list items => do return .array (← itemJsons table selection items)
  | .set elements => do return .array (← itemJsons table selection elements)
  | .map entries => do return .object (Entries.sorted (← entryJsons table selection entries))

def itemJsons (table : TableSchema) (selection : Selection) :
    List Value → Except Error (List Json)
  | [] => .ok []
  | item :: rest => do
    let item ← toJson table selection item
    let rest ← itemJsons table selection rest
    return item :: rest

def entryJsons (table : TableSchema) (selection : Selection) :
    List (String × Value) → Except Error (List (String × Json))
  | [] => .ok []
  | (name, value) :: rest => do
    let value ← toJson table selection value
    let rest ← entryJsons table selection rest
    return (name, value) :: rest

def memberJsons (table : TableSchema) (selection : Selection) :
    List (String × Value) → List (String × Except Error Json)
  | [] => []
  | (name, value) :: rest =>
    (name, toJson table selection value) :: memberJsons table selection rest

end

/-! ### Reading -/

/-- Whole numbers of at most 64 bits stay integral. -/
def numberOfInt (value : Int) : Number :=
  match Decimal.int64? value with
  | some value => .integer value
  | none => .float (Float.ofInt value)

def byteOfJson (json : Json) : Except Error UInt8 :=
  match json with
  | .integer value =>
    if 0 ≤ value ∧ value < 256 then .ok (UInt8.ofNat value.toNat)
    else .error (.codec (.notAByte json))
  | json => .error (.codec (.notAByte json))

mutual

/-- Reads a value of a declared type; null stands for an unset value of any type. -/
def ofJson (table : TableSchema) (type : ValueType) (json : Json) : Except Error Value := do
  let element ← type.requireElement
  match type.kind, element, json with
  | _, _, .null => return .null
  | .list, element, .array items => return .list (← itemsOfJson table element items)
  | .set, element, .array items => return .set (← itemsOfJson table element items)
  | .map, element, .object members => return .map (← entriesOfJson table element members)
  | .scalar, .string, .string text => return .string text
  | .scalar, .boolean, .boolean value => return .boolean value
  | .scalar, .binary, .array items => return .binary (← items.mapM byteOfJson)
  | .scalar, .object typeName, .object members =>
    let type ← table.requireType typeName
    let record ← fieldsOfJson table type (.empty typeName) members
    return record.toValue
  | .scalar, .integer, .integer value => return .number ((numberOfInt value).narrow .integer)
  | .scalar, .long, .integer value => return .number ((numberOfInt value).narrow .long)
  | .scalar, .float, .integer value => return .number ((numberOfInt value).narrow .float)
  | .scalar, .double, .integer value => return .number ((numberOfInt value).narrow .double)
  | .scalar, .integer, .float value => return .number ((Number.float value).narrow .integer)
  | .scalar, .long, .float value => return .number ((Number.float value).narrow .long)
  | .scalar, .float, .float value => return .number ((Number.float value).narrow .float)
  | .scalar, .double, .float value => return .number ((Number.float value).narrow .double)
  | _, _, json => throw (.codec (.unexpectedJson type.text json))

def itemsOfJson (table : TableSchema) (element : ElementType) :
    List Json → Except Error (List Value)
  | [] => .ok []
  | item :: rest => do
    let item ← ofJson table (.scalar element) item
    let rest ← itemsOfJson table element rest
    return item :: rest

def entriesOfJson (table : TableSchema) (element : ElementType) :
    List (String × Json) → Except Error (List (String × Value))
  | [] => .ok []
  | (name, json) :: rest => do
    let value ← ofJson table (.scalar element) json
    let rest ← entriesOfJson table element rest
    return (name, value) :: rest

/-- Sets the fields of a record from members, which must all be declared. -/
def fieldsOfJson (table : TableSchema) (type : TypeSchema) (record : Record) :
    List (String × Json) → Except Error Record
  | [] => .ok record
  | (name, json) :: rest =>
    match type.field? name with
    | none => .error (.codec (.undeclaredField type.name name))
    | some field => do
      let value ← ofJson table field.type json
      fieldsOfJson table type (record.set name value) rest

end

/-- Reads a record of a named type. -/
def recordOfJson (table : TableSchema) (typeName : String) (json : Json) : Except Error Record :=
  match json with
  | .object members => do
    let type ← table.requireType typeName
    fieldsOfJson table type (.empty typeName) members
  | json => .error (.codec (.unexpectedJson ("object " ++ typeName) json))

end RecordStore.Codec

namespace RecordStore.Record

/-- The JSON of every set field. -/
def toJson (table : TableSchema) (record : Record) : Except Error Json :=
  Codec.toJson table .all record.toValue

/-- The JSON for exports, which leaves out the fields that opt out. -/
def toExport (table : TableSchema) (record : Record) : Except Error Json :=
  Codec.toJson table .exported record.toValue

/-- A record of the root type from the JSON of its fields. -/
def ofJson (table : TableSchema) (json : Json) : Except Error Record :=
  Codec.recordOfJson table table.rootType json

/-- A record of the root type from the JSON text of its fields. -/
def ofText (table : TableSchema) (text : String) : Except Error Record :=
  match Json.parse? text with
  | some json => Record.ofJson table json.normal
  | none => .error (.codec .malformedJson)

end RecordStore.Record
