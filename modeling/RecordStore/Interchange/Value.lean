import RecordStore.Interchange.Reading
import RecordStore.Json.Printer
import RecordStore.Record.Value

/-!
# Values, records and keys as JSON

Numbers are written as text under `i` or `f`, which tells integers from floats. Bytes, sets, maps and
records are objects with one member that names their shape.
-/

namespace RecordStore.Interchange

open Reading

/-! ### Reading -/

def readNumber : Json → Reading Number
  | .integer value => .ok (.integer (Int64.ofInt value))
  | .object [("i", .string text)] =>
    match Decimal.readInt64? text with
    | some value => .ok (.integer value)
    | none => .error "integer text expected"
  | .object [("f", .string text)] =>
    match Decimal.readFloat? text with
    | some value => .ok (.float value)
    | none => .error "decimal text expected"
  | _ => .error "number expected"

/-- The entries with each name kept in the place where it first came. -/
def putAll {α : Type} (entries : List (String × α)) : List (String × α) :=
  entries.foldl (fun held entry => Entries.put held entry.1 entry.2) []

/-- The record that results from setting the fields one after another. -/
def buildRecord (typeName : String) (fields : List (String × Value)) (revision : Int64) : Record :=
  let record := fields.foldl (fun held field => held.set field.1 field.2) (Record.empty typeName)
  { record with revision }

mutual

def readValue : Json → Reading Value
  | .null => .ok .null
  | .boolean value => .ok (.boolean value)
  | .string text => .ok (.string text)
  | .array items => (readValues items).map .list
  | .object [("b", content)] => (bytes content).map .binary
  | .object [("list", .array items)] => (readValues items).map .list
  | .object [("set", .array items)] => (readValues items).map .set
  | .object [("map", .array items)] => do return .map (putAll (← readEntries items))
  | .object [("obj", .object members)] => do
    let typeName ← required text (.object members) "type"
    let revision ← defaulted integer 0 (.object members) "rev"
    return (buildRecord typeName (← readFields members) (Int64.ofInt revision)).toValue
  | json => (readNumber json).map .number

def readValues : List Json → Reading (List Value)
  | [] => .ok []
  | item :: rest => do
    let item ← readValue item
    return item :: (← readValues rest)

/-- Reads pairs of a name and a value. -/
def readEntries : List Json → Reading (List (String × Value))
  | [] => .ok []
  | .array [.string name, item] :: rest => do
    let value ← readValue item
    return (name, value) :: (← readEntries rest)
  | _ => .error "entry expected"

/-- The fields of a record, found among its members. -/
def readFields : List (String × Json) → Reading (List (String × Value))
  | [] => .ok []
  | ("fields", .array items) :: _ => readEntries items
  | _ :: rest => readFields rest

end

def readRecord : Json → Reading Record
  | .object members => do
    let typeName ← required text (.object members) "type"
    let revision ← defaulted integer 0 (.object members) "rev"
    return buildRecord typeName (← readFields members) (Int64.ofInt revision)
  | _ => .error "record expected"

def readEntry : Json → Reading (String × Value) :=
  pair text readValue

def readKey (json : Json) : Reading RecordKey := do
  return ⟨← required readValue json "hash", ← optional readValue json "range"⟩

/-! ### Writing -/

def optionJson {α : Type} (write : α → Json) : Option α → Json
  | some value => write value
  | none => .null

def textsJson (values : List String) : Json :=
  .array (values.map .string)

/-- An object without the members that are missing. -/
def partsJson (members : List (String × Option Json)) : Json :=
  .object (members.filterMap fun (name, value) => value.map fun value => (name, value))

def floatText (value : Float) : String :=
  Decimal.Notation.plain.text value

def numberJson : Number → Json
  | .integer value => .object [("i", .string (toString value.toInt))]
  | .float value => .object [("f", .string (floatText value))]

mutual

def valueJson : Value → Json
  | .null => .null
  | .boolean value => .boolean value
  | .number value => numberJson value
  | .string text => .string text
  | .binary bytes => .object [("b", .string (Text.hexText bytes))]
  | .object typeName fields revision => .object [("obj", .object [("type", .string typeName),
      ("fields", .array (entryJsons fields)), ("rev", .integer revision.toInt)])]
  | .list items => .object [("list", .array (valueJsons items))]
  | .set elements => .object [("set", .array (valueJsons elements))]
  | .map entries => .object [("map", .array (entryJsons entries))]

def valueJsons : List Value → List Json
  | [] => []
  | item :: rest => valueJson item :: valueJsons rest

def entryJsons : List (String × Value) → List Json
  | [] => []
  | (name, value) :: rest => .array [.string name, valueJson value] :: entryJsons rest

end

def recordJson (record : Record) : Json :=
  .object [("type", .string record.typeName), ("fields", .array (entryJsons record.fields)),
    ("rev", .integer record.revision.toInt)]

def keyJson (key : RecordKey) : Json :=
  .object [("hash", valueJson key.hash), ("range", optionJson valueJson key.range)]

end RecordStore.Interchange
