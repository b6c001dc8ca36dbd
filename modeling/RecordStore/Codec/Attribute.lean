import RecordStore.Codec.Json
import RecordStore.Codec.Key
import RecordStore.Gzip.Member
import RecordStore.Json.Parser
import RecordStore.Json.Printer

/-!
# Values as stored attributes

A field is stored plainly by its declared type, as compressed JSON text, or as a map that holds each
object of a list under the text of its `id`. Only the persisted fields of an object that are set are
stored; reading fills in the absent value of every other field.
-/

namespace RecordStore

/-- How a field is stored. A field with both forms is written compressed and read in either. -/
structure Storage where
  compressed : Bool
  /-- Whether a list of objects is stored as a map by their ids; holds the name of the field. -/
  byId : Option String
  deriving DecidableEq, Repr

namespace Storage

def plain : Storage := ⟨false, none⟩

end Storage

def FieldSchema.storage (field : FieldSchema) : Storage :=
  ⟨field.compress, if field.rekeyById then some field.name else none⟩

namespace Codec

/-! ### Compression -/

def compressJson (json : Json) : Attribute :=
  .binary (Gzip.compress json.text.toByteArray.toList)

def decompressJson (bytes : List UInt8) : Except Error Json :=
  match Gzip.decompress? bytes with
  | none => .error (.codec .notCompressed)
  | some data =>
    match (String.fromUTF8? data.toByteArray).bind Json.parse? with
    | none => .error (.codec .malformedJson)
    | some json => .ok json.normal

/-! ### Sets -/

/-- The elements without repetitions, each in its first place. -/
def withoutRepeats {α : Type} [BEq α] (elements : List α) : List α :=
  elements.foldl (fun kept element => if kept.contains element then kept else kept ++ [element]) []

def stringElement : Value → Except Error String
  | .string text => .ok text
  | other => .error (.codec (.unexpectedShape "string" other.shape))

def binaryElement : Value → Except Error (List UInt8)
  | .binary bytes => .ok bytes
  | other => .error (.codec (.unexpectedShape "binary" other.shape))

def numberElement (element : ElementType) : Value → Except Error Number
  | .number number => .ok (number.narrow element)
  | other => .error (.codec (.unexpectedShape "number" other.shape))

/-- Sets are stored natively, but for the empty set, which is stored as an empty list. -/
def encodeSet (element : ElementType) (elements : List Value) : Except Error Attribute :=
  if elements.isEmpty then .ok (.list [])
  else
    match element with
    | .string => do return .stringSet (withoutRepeats (← elements.mapM stringElement))
    | .binary => do return .binarySet (withoutRepeats (← elements.mapM binaryElement))
    | element =>
      if element.isNumeric then do
        let numbers ← elements.mapM (numberElement element)
        return .numberSet ((withoutRepeats numbers).map Number.text)
      else .error (.contract (.setElement element))

/-! ### Ids -/

/-- The text by which an object is stored under its id. -/
def idText (typeName : String) (fields : List (String × Value)) : Except Error String :=
  match Entries.find? fields "id" with
  | some (.string text) => .ok text
  | some (.number number) => .ok number.text
  | some (.binary bytes) => .ok (Text.hexText bytes)
  | _ => .error (.codec (.noUsableId typeName))

def idOf (value : Value) : Option Value :=
  value.record?.bind fun record => record.get? "id"

/-- Whether an object may stay before another one; ids of different shapes are not ordered. -/
def idPrecedes (left right : Value) : Bool :=
  match idOf left, idOf right with
  | some (.number left), some (.number right) => left.compare? right ≠ some .gt
  | some (.string left), some (.string right) => ¬ right < left
  | some (.binary left), some (.binary right) => ¬ right < left
  | _, _ => true

/-! ### Writing -/

/-- Stores the fields that are set and persisted, in the order of their declaration. -/
def storeMembers (held : List (String × (FieldSchema → Except Error Attribute))) :
    (fields : List FieldSchema) → Except Error Item
  | [] => .ok []
  | field :: fields =>
    match Entries.find? held field.name with
    | some store =>
      if field.persist then do
        let value ← store field
        return Item.set (← storeMembers held fields) field.wireName value
      else storeMembers held fields
    | none => storeMembers held fields

/-- Stores an object whose held fields must all be declared. -/
def storeObject (type : TypeSchema) (names : List String)
    (held : List (String × (FieldSchema → Except Error Attribute))) : Except Error Item := do
  names.forM fun name => (type.requireField name).map fun _ => ()
  storeMembers held type.fields

mutual

/-- Stores a value of a declared type. -/
def encode (table : TableSchema) (storage : Storage) (type : ValueType) (value : Value) :
    Except Error Attribute :=
  match storage with
  | ⟨true, _⟩ => (toJson table .stored value).map compressJson
  | ⟨false, some field⟩ => do
    match ← type.requireElement with
    | .object typeName =>
      let object ← table.requireType typeName
      match value with
      | .null => return .map []
      | .list items => return .map (Item.ofEntries (← encodeById table type object items))
      | other => throw (.codec (.unexpectedShape type.text other.shape))
    | _ => throw (.contract (.rekeyedElement field))
  | ⟨false, none⟩ => do
    let element ← type.requireElement
    match type.kind, element, value with
    | .scalar, _, .null => return .null true
    | .list, _, .null => return .list []
    | .map, _, .null => return .map []
    | .set, _, .null => return .list []
    | .list, element, .list items => return .list (← encodeItems table element items)
    | .list, element, .set items => return .list (← encodeItems table element items)
    | .map, element, .map entries =>
      return .map (Item.ofEntries (← encodeEntries table element entries))
    | .set, element, .list items => encodeSet element items
    | .set, element, .set items => encodeSet element items
    | .scalar, .string, .string text => return .string text
    | .scalar, .boolean, .boolean value => return .boolean value
    | .scalar, .binary, .binary bytes => return .binary bytes
    | .scalar, .object expected, .object typeName fields _ =>
      if typeName ≠ expected then throw (.codec (.unexpectedObject expected typeName))
      let object ← table.requireType typeName
      return .map (← storeObject object (Entries.names fields) (encodeFields table fields))
    | .scalar, element, .number number =>
      if element.isNumeric then return .number (number.narrow element).text
      else throw (.codec (.unexpectedShape type.text .number))
    | _, _, value => throw (.codec (.unexpectedShape type.text value.shape))

def encodeItems (table : TableSchema) (element : ElementType) :
    List Value → Except Error (List Attribute)
  | [] => .ok []
  | item :: rest => do
    let item ← encode table .plain (.scalar element) item
    return item :: (← encodeItems table element rest)

def encodeEntries (table : TableSchema) (element : ElementType) :
    List (String × Value) → Except Error (List (String × Attribute))
  | [] => .ok []
  | (name, value) :: rest => do
    let value ← encode table .plain (.scalar element) value
    return (name, value) :: (← encodeEntries table element rest)

/-- Stores each object under the text of its id. -/
def encodeById (table : TableSchema) (type : ValueType) (object : TypeSchema) :
    List Value → Except Error (List (String × Attribute))
  | [] => .ok []
  | .object typeName fields _ :: rest => do
    let id ← idText typeName fields
    let stored ← storeObject object (Entries.names fields) (encodeFields table fields)
    return (id, .map stored) :: (← encodeById table type object rest)
  | other :: _ => .error (.codec (.unexpectedShape type.text other.shape))

/-- How each field that is set would be stored under a declaration. -/
def encodeFields (table : TableSchema) :
    List (String × Value) → List (String × (FieldSchema → Except Error Attribute))
  | [] => []
  | (_, .null) :: rest => encodeFields table rest
  | (name, value) :: rest =>
    (name, fun field => encode table field.storage field.type value) :: encodeFields table rest

end

/-- Stores the value of a field. -/
def encodeField (table : TableSchema) (field : FieldSchema) (value : Value) :
    Except Error Attribute :=
  encode table field.storage field.type value

/-- Stores the fields of an object. -/
def encodeObject (table : TableSchema) (type : TypeSchema) (record : Record) : Except Error Item :=
  storeObject type (Entries.names record.fields) (encodeFields table record.fields)

/-! ### Reading -/

/-- Reads the fields of an object in the order of their declaration. -/
def readMembers (held : List (String × (FieldSchema → Except Error Value))) (record : Record) :
    (fields : List FieldSchema) → Except Error Record
  | [] => .ok record
  | field :: fields => do
    let value ← match Entries.find? held field.wireName with
      | some read => if field.persist then read field else .ok field.absentValue
      | none => .ok field.absentValue
    readMembers held (record.set field.name value) fields

mutual

/-- Reads a stored attribute as a value of a declared type. -/
def decode (table : TableSchema) (storage : Storage) (type : ValueType) (stored : Attribute) :
    Except Error Value :=
  match storage, stored with
  | ⟨true, _⟩, .binary bytes => do ofJson table type (← decompressJson bytes)
  | ⟨_, some _⟩, .map entries => do
    let element ← type.requireElement
    let entries ← decodeEntries table element entries
    return .list ((entries.map Prod.snd).mergeSort idPrecedes)
  | _, stored => do
    let element ← type.requireElement
    match type.kind, element, stored with
    | .scalar, _, .null _ => return .null
    | .list, _, .null _ => return .list []
    | .map, _, .null _ => return .map []
    | .set, _, .null _ => return .set []
    | .list, element, .list items => return .list (← decodeItems table element items)
    | .map, element, .map entries => return .map (← decodeEntries table element entries)
    | .set, _, .stringSet members => return .set (members.map .string)
    | .set, element, .numberSet members =>
      return .set ((← members.mapM fun text => numberOfText text element).map .number)
    | .set, _, .binarySet members => return .set (members.map .binary)
    | .set, element, .list items => return .set (← decodeItems table element items)
    | .scalar, .string, .string text => return .string text
    | .scalar, .boolean, .boolean value => return .boolean value
    | .scalar, .binary, .binary bytes => return .binary bytes
    | .scalar, .object typeName, .map entries =>
      let object ← table.requireType typeName
      let record ← readMembers (decodeFields table entries) (.empty object.name) object.fields
      return record.toValue
    | .scalar, element, .number text =>
      if element.isNumeric then return .number (← numberOfText text element)
      else throw (.codec (.unexpectedAttribute type.text stored))
    | _, _, stored => throw (.codec (.unexpectedAttribute type.text stored))

def decodeItems (table : TableSchema) (element : ElementType) :
    List Attribute → Except Error (List Value)
  | [] => .ok []
  | item :: rest => do
    let item ← decode table .plain (.scalar element) item
    return item :: (← decodeItems table element rest)

def decodeEntries (table : TableSchema) (element : ElementType) :
    List (String × Attribute) → Except Error (List (String × Value))
  | [] => .ok []
  | (name, value) :: rest => do
    let value ← decode table .plain (.scalar element) value
    return (name, value) :: (← decodeEntries table element rest)

/-- How each stored attribute would be read under a declaration. -/
def decodeFields (table : TableSchema) :
    List (String × Attribute) → List (String × (FieldSchema → Except Error Value))
  | [] => []
  | (name, value) :: rest =>
    (name, fun field => decode table field.storage field.type value) :: decodeFields table rest

end

/-- Reads the value of a field. -/
def decodeField (table : TableSchema) (field : FieldSchema) (stored : Attribute) :
    Except Error Value :=
  decode table field.storage field.type stored

/-- Reads the fields of an object, filling in what is absent. -/
def decodeObject (table : TableSchema) (type : TypeSchema) (item : Item) : Except Error Record :=
  readMembers (decodeFields table item) (.empty type.name) type.fields

/-! ### Counters -/

/-- The schema version that an item was stored at; null counts as absent. -/
def storedVersion (table : TableSchema) (item : Item) : Except Error (Option UInt32) :=
  match Item.get? item table.versionAttribute with
  | none | some (.null _) => .ok none
  | some (.number text) =>
    match Decimal.readUInt32? (Text.trim text.toList) with
    | some version => .ok (some version)
    | none => .error (.codec (.counterText .version table.versionAttribute text))
  | some other => .error (.codec (.counterKind .version table.versionAttribute other))

/-- The revision of a stored item, zero when it has none. -/
def storedRevision (table : TableSchema) (item : Item) : Except Error Int64 :=
  match Item.get? item table.revisionAttribute with
  | none | some (.null _) => .ok 0
  | some (.number text) =>
    match Decimal.readInt64? (String.ofList (Text.trim text.toList)) with
    | some revision => .ok revision
    | none => .error (.codec (.counterText .revision table.revisionAttribute text))
  | some other => .error (.codec (.counterKind .revision table.revisionAttribute other))

/-- A version as it is stored. -/
def versionAttribute (version : UInt32) : Attribute :=
  .number (toString version.toNat)

/-- A revision as it is stored. -/
def revisionAttribute (revision : Int64) : Attribute :=
  .number (toString revision.toInt)

end Codec

/-! ### Records -/

/-- The item that stores a record of the root type, stamped with the version of the table. -/
def Record.toItem (table : TableSchema) (record : Record) : Except Error Item := do
  if record.typeName ≠ table.rootType then
    throw (.contract (.recordType table.name table.rootType record.typeName))
  let item ← Codec.encodeObject table table.root record
  let item := Item.set item table.versionAttribute (Codec.versionAttribute table.version)
  if table.optimisticLocking then
    return Item.set item table.revisionAttribute (Codec.revisionAttribute record.revision)
  else return item

/-- The record of the root type that an item stores. -/
def Record.ofItem (table : TableSchema) (item : Item) : Except Error Record := do
  let record ← Codec.decodeObject table table.root item
  if table.optimisticLocking then
    return { record with revision := ← Codec.storedRevision table item }
  else return record

end RecordStore
