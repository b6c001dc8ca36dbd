import Mathlib
import RecordStore.Codec.Attribute

/-!
# Values of declared types

Which values a declared type describes, and what becomes of such a value when it is stored and read
again: its normal form.
-/

namespace RecordStore

/-! ### Typed values -/

/-- Whether an object holds an id, in a field that is stored. -/
def Value.carriesId (table : TableSchema) : Value → Bool
  | .object typeName fields _ =>
    ((table.type? typeName).bind fun type => type.field? "id").any FieldSchema.persist &&
      Entries.contains fields "id"
  | _ => false

/-- Objects that are told apart by ids that are stored. -/
structure DistinctIds (table : TableSchema) (items : List Value) : Prop where
  carried : ∀ item ∈ items, item.carriesId table = true
  distinct : (items.map Codec.idOf).Nodup

/-- The values that a type describes. Fields that are not set are left out of an object, and only
the root record has a revision. Numbers are integral: a float is not always the text it is stored as.
-/
inductive Typed (table : TableSchema) : ValueType → Value → Prop where
  | string (text : String) : Typed table (.scalar .string) (.string text)
  | boolean (value : Bool) : Typed table (.scalar .boolean) (.boolean value)
  | binary (bytes : List UInt8) : Typed table (.scalar .binary) (.binary bytes)
  | integer (value : Int64) (least : -2 ^ 31 ≤ value.toInt) (most : value.toInt < 2 ^ 31) :
    Typed table (.scalar .integer) (.number (.integer value))
  | long (value : Int64) : Typed table (.scalar .long) (.number (.integer value))
  | object {typeName : String} {type : TypeSchema} {fields : List (String × Value)}
    (declared : table.type? typeName = some type)
    (names : (Entries.names fields).Nodup)
    (known : ∀ name ∈ Entries.names fields, (type.field? name).isSome = true)
    (typed : ∀ name value field, (name, value) ∈ fields → type.field? name = some field →
      Typed table field.type value)
    (distinct : ∀ name items field, (name, .list items) ∈ fields → type.field? name = some field →
      field.compress = false → field.rekeyById = true → DistinctIds table items) :
    Typed table (.scalar (.object typeName)) (.object typeName fields 0)
  | list {element : ElementType} {items : List Value}
    (typed : ∀ item ∈ items, Typed table (.scalar element) item) :
    Typed table ⟨.list, some element⟩ (.list items)
  | map {element : ElementType} {entries : List (String × Value)}
    (names : (Entries.names entries).Nodup)
    (typed : ∀ name value, (name, value) ∈ entries → Typed table (.scalar element) value) :
    Typed table ⟨.map, some element⟩ (.map entries)
  | set {element : ElementType} {elements : List Value} (distinct : elements.Nodup)
    (typed : ∀ item ∈ elements, Typed table (.scalar element) item) :
    Typed table ⟨.set, some element⟩ (.set elements)

/-- A record of the root type, at any revision. -/
structure Record.IsTyped (table : TableSchema) (record : Record) : Prop where
  root : record.typeName = table.rootType
  fields : Typed table (.scalar (.object table.rootType)) (.object record.typeName record.fields 0)

/-! ### Normal forms -/

namespace Value

mutual

/-- What is left of a value that was compressed: of an object, the fields that are stored. -/
def kept (table : TableSchema) : Value → Value
  | .object typeName fields _ =>
    .object typeName (Entries.sorted (keptFields table (table.type? typeName) fields)) 0
  | .list items => .list (keptItems table items)
  | .set elements => .set (keptItems table elements)
  | .map entries => .map (Entries.sorted (keptEntries table entries))
  | value => value

def keptItems (table : TableSchema) : List Value → List Value
  | [] => []
  | item :: rest => item.kept table :: keptItems table rest

def keptEntries (table : TableSchema) : List (String × Value) → List (String × Value)
  | [] => []
  | (name, value) :: rest => (name, value.kept table) :: keptEntries table rest

def keptFields (table : TableSchema) (type : Option TypeSchema) :
    List (String × Value) → List (String × Value)
  | [] => []
  | (name, value) :: rest =>
    if (type.bind fun type => type.field? name).any FieldSchema.persist then
      (name, value.kept table) :: keptFields table type rest
    else keptFields table type rest

end

/-- The items of a list by their ids. -/
def sortedById : Value → Value
  | .list items => .list (items.mergeSort Codec.idPrecedes)
  | value => value

end Value

/-- What is read of a field that was stored, from what is left of its value when it is compressed
and when it is not. -/
def Storage.select (storage : Storage) (compressed plain : Value) : Value :=
  if storage.compressed then compressed
  else if storage.byId.isSome then plain.sortedById
  else plain

/-- What a field reads as: its value when it is set and stored, and its absent value otherwise. -/
def FieldSchema.fill (held : List (String × (FieldSchema → Value))) (field : FieldSchema) : Value :=
  match Entries.find? held field.name with
  | some value => if field.persist then value field else field.absentValue
  | none => field.absentValue

/-- The record with each of the fields set. -/
def Record.fill (member : FieldSchema → Value) (record : Record) :
    (fields : List FieldSchema) → Record
  | [] => record
  | field :: fields => (record.set field.name (member field)).fill member fields

namespace Value

mutual

/-- What is left of a value that was stored plainly: objects hold all fields of their type. -/
def normal (table : TableSchema) : Value → Value
  | .object typeName fields _ =>
    let declared := ((table.type? typeName).map TypeSchema.fields).getD []
    ((Record.empty typeName).fill (FieldSchema.fill (normalFields table fields)) declared).toValue
  | .list items => .list (normalItems table items)
  | .set elements => .set elements
  | .map entries => .map (Entries.sorted (normalEntries table entries))
  | value => value

def normalItems (table : TableSchema) : List Value → List Value
  | [] => []
  | item :: rest => item.normal table :: normalItems table rest

def normalEntries (table : TableSchema) : List (String × Value) → List (String × Value)
  | [] => []
  | (name, value) :: rest => (name, value.normal table) :: normalEntries table rest

def normalFields (table : TableSchema) :
    List (String × Value) → List (String × (FieldSchema → Value))
  | [] => []
  | (name, value) :: rest =>
    (name, fun field => field.storage.select (value.kept table) (value.normal table)) ::
      normalFields table rest

end

end Value

/-- What a record reads as once it was stored; without optimistic locking, no revision is. -/
def Record.normal (table : TableSchema) (record : Record) : Record :=
  { (Record.empty table.rootType).fill (FieldSchema.fill (Value.normalFields table record.fields))
      table.root.fields with
    revision := if table.optimisticLocking then record.revision else 0 }

/-! ### Compressed documents -/

/-- Neither compressing a document nor writing it as text loses anything of it. -/
structure Json.Survives (json : Json) : Prop where
  compression : Gzip.decompress? (Gzip.compress json.text.toByteArray.toList) =
    some json.text.toByteArray.toList
  text : (Json.parse? json.text).map Json.normal = some json

/-- The documents that are compressed when a value is stored. -/
inductive Compresses (table : TableSchema) : Storage → Value → Json → Prop where
  | whole {storage : Storage} {value : Value} {json : Json} (compressed : storage.compressed = true)
    (written : Codec.toJson table .stored value = .ok json) : Compresses table storage value json
  | item {storage : Storage} {items : List Value} {item : Value} {json : Json}
    (compressed : storage.compressed = false) (mem : item ∈ items)
    (within : Compresses table .plain item json) : Compresses table storage (.list items) json
  | entry {entries : List (String × Value)} {name : String} {value : Value} {json : Json}
    (mem : (name, value) ∈ entries) (within : Compresses table .plain value json) :
    Compresses table .plain (.map entries) json
  | field {typeName : String} {type : TypeSchema} {fields : List (String × Value)}
    {revision : Int64} {name : String} {value : Value} {field : FieldSchema} {json : Json}
    (declared : table.type? typeName = some type) (known : type.field? name = some field)
    (persist : field.persist = true) (mem : (name, value) ∈ fields)
    (within : Compresses table field.storage value json) :
    Compresses table .plain (.object typeName fields revision) json

end RecordStore
