import RecordStore.Error.Basic
import RecordStore.Json.Parser

/-!
# Schema descriptions

The declarative form of a schema and how it is read from JSON. Reading is strict: a required member
must be there, members have their declared types, and none of them comes twice. Unknown members are
passed over, whatever is written under them.
-/

namespace RecordStore

structure FieldDescription where
  name : String
  wireName : Option String
  kind : Kind
  element : Option ElementType
  default : Option Json
  persist : Bool
  serialize : Bool
  replaceOnWrite : Bool
  deltaMerge : Bool
  compress : Bool
  rekeyById : Bool
  expiry : Bool

structure TypeDescription where
  name : String
  fields : List FieldDescription

structure IndexDescription where
  name : String
  hashKey : String
  rangeKey : Option String
  projection : List String

structure TableDescription where
  name : String
  namespaceName : String
  rootType : String
  hashKey : String
  rangeKey : Option String
  version : UInt32
  optimisticLocking : Bool
  migrations : Bool
  versionAttribute : Option String
  revisionAttribute : Option String
  types : List TypeDescription
  indexes : List IndexDescription

structure SchemaDescription where
  tables : List TableDescription

namespace Description

/-! ### Members -/

/-- The members of a structure by name. A structure may also be given as an array of its members
in the order of their declaration. -/
def members? (known : List String) : Json.Draft → Option (String → Option Json.Draft)
  | .object members => do
    let members ← Json.Draft.named? members
    if known.all fun name => (members.filter fun member => member.1 = name).length ≤ 1 then
      some (Entries.find? members)
    else none
  | .array items =>
    if items.length ≤ known.length then some (Entries.find? (known.zip items)) else none
  | _ => none

def text? : Json.Draft → Option String
  | .string text => some text
  | _ => none

def requiredText? : Option Json.Draft → Option String
  | some draft => text? draft
  | none => none

def defaultedText? : Option Json.Draft → Option String
  | some draft => text? draft
  | none => some ""

/-- A member that may be absent or null. -/
def optional? {α : Type} (read? : Json.Draft → Option α) : Option Json.Draft → Option (Option α)
  | none | some .null => some none
  | some draft => (read? draft).map some

def flag? (absent : Bool) : Option Json.Draft → Option Bool
  | none => some absent
  | some (.boolean value) => some value
  | some _ => none

def version? : Option Json.Draft → Option UInt32
  | some (.integer value) =>
    if 0 ≤ value ∧ value < UInt32.size then some (UInt32.ofNat value.toNat) else none
  | _ => none

def list? {α : Type} (read? : Json.Draft → Option α) : Json.Draft → Option (List α)
  | .array items => items.mapM read?
  | _ => none

def requiredList? {α : Type} (read? : Json.Draft → Option α) : Option Json.Draft → Option (List α)
  | some draft => list? read? draft
  | none => none

def defaultedList? {α : Type} (read? : Json.Draft → Option α) : Option Json.Draft → Option (List α)
  | some draft => list? read? draft
  | none => some []

/-- The name of a choice without content, which may also be written as a member holding null. -/
def choice? : Json.Draft → Option String
  | .string name => some name
  | .object [(name, .null)] => name
  | _ => none

def kind? (draft : Json.Draft) : Option Kind :=
  match choice? draft with
  | some "scalar" => some .scalar
  | some "map" => some .map
  | some "list" => some .list
  | some "set" => some .set
  | _ => none

def element? (draft : Json.Draft) : Option ElementType :=
  match draft with
  | .object [(some "object", .string typeName)] => some (.object typeName)
  | draft =>
    match choice? draft with
    | some "string" => some .string
    | some "integer" => some .integer
    | some "long" => some .long
    | some "float" => some .float
    | some "double" => some .double
    | some "boolean" => some .boolean
    | some "binary" => some .binary
    | _ => none

end Description

open Description

/-! ### Structures -/

def FieldDescription.ofDraft? (draft : Json.Draft) : Option FieldDescription := do
  let member ← members? ["name", "wire_name", "kind", "element_type", "default", "persist",
    "serialize", "replace_on_write", "delta_merge", "compress", "rekey_by_id", "expiry"] draft
  return {
    name := ← requiredText? (member "name")
    wireName := ← optional? text? (member "wire_name")
    kind := ← (match member "kind" with
      | none => some .scalar
      | some draft => kind? draft)
    element := ← optional? element? (member "element_type")
    default := ← optional? (fun draft => draft.toJson?.map Json.normal) (member "default")
    persist := ← flag? true (member "persist")
    serialize := ← flag? true (member "serialize")
    replaceOnWrite := ← flag? false (member "replace_on_write")
    deltaMerge := ← flag? false (member "delta_merge")
    compress := ← flag? false (member "compress")
    rekeyById := ← flag? false (member "rekey_by_id")
    expiry := ← flag? false (member "expiry") }

def TypeDescription.ofDraft? (draft : Json.Draft) : Option TypeDescription := do
  let member ← members? ["name", "fields"] draft
  return {
    name := ← requiredText? (member "name")
    fields := ← requiredList? FieldDescription.ofDraft? (member "fields") }

def IndexDescription.ofDraft? (draft : Json.Draft) : Option IndexDescription := do
  let member ← members? ["name", "hash_key", "range_key", "projection"] draft
  return {
    name := ← requiredText? (member "name")
    hashKey := ← requiredText? (member "hash_key")
    rangeKey := ← optional? text? (member "range_key")
    projection := ← defaultedList? text? (member "projection") }

def TableDescription.ofDraft? (draft : Json.Draft) : Option TableDescription := do
  let member ← members? ["name", "namespace", "root_type", "hash_key", "range_key", "version",
    "optimistic_locking", "migrations", "version_attribute", "revision_attribute", "types",
    "indexes"] draft
  return {
    name := ← requiredText? (member "name")
    namespaceName := ← defaultedText? (member "namespace")
    rootType := ← requiredText? (member "root_type")
    hashKey := ← requiredText? (member "hash_key")
    rangeKey := ← optional? text? (member "range_key")
    version := ← version? (member "version")
    optimisticLocking := ← flag? false (member "optimistic_locking")
    migrations := ← flag? false (member "migrations")
    versionAttribute := ← optional? text? (member "version_attribute")
    revisionAttribute := ← optional? text? (member "revision_attribute")
    types := ← requiredList? TypeDescription.ofDraft? (member "types")
    indexes := ← defaultedList? IndexDescription.ofDraft? (member "indexes") }

namespace SchemaDescription

def ofDraft? (draft : Json.Draft) : Option SchemaDescription := do
  let member ← members? ["tables"] draft
  return { tables := ← requiredList? TableDescription.ofDraft? (member "tables") }

def ofJson (json : Json) : Except Error SchemaDescription :=
  match ofDraft? (.ofJson json) with
  | some description => .ok description
  | none => .error (.schema .malformed)

def ofText (text : String) : Except Error SchemaDescription :=
  match (Json.Draft.parse? text).bind ofDraft? with
  | some description => .ok description
  | none => .error (.schema .malformed)

end SchemaDescription

end RecordStore
