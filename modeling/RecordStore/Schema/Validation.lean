import RecordStore.Codec.Json
import RecordStore.Schema.Description

/-!
# Checking schema descriptions

A description becomes a schema when its names are unique, its fields can be stored as they ask to
be, its types do not contain themselves, its keys are persisted scalars, and every default has the
declared type of its field. The first violation is reported.
-/

namespace RecordStore

def SchemaFault.check (accepted : Bool) (fault : SchemaFault) : Except Error Unit :=
  if accepted then .ok () else .error (.schema fault)

open SchemaFault (check)

/-! ### Fields and types -/

def ElementType.isObject : ElementType → Bool
  | .object _ => true
  | _ => false

/-- A field that can be stored as it asks to be; its default is read later. -/
def FieldDescription.resolve (table typeName : String) (description : FieldDescription) :
    Except Error FieldSchema := do
  let name := description.name
  let wireName := description.wireName.getD name
  let type : ValueType := ⟨description.kind, description.element⟩
  check (!name.isEmpty) (.unnamedField typeName)
  check (!wireName.isEmpty && !wireName.toList.contains '.')
    (.invalidWireName typeName name wireName)
  match description.element with
  | none => throw (.schema (.undeclaredElement typeName name))
  | some element =>
    check (!description.compress || type.isCollection) (.compressedScalar typeName name)
    check (type.kind ≠ .set || element.isSetElement) (.setElement typeName name element)
    check (!description.rekeyById || (type.kind = .list && element.isObject))
      (.rekeyedKind typeName name)
    check (!description.expiry ||
        (type.kind = .scalar && (element = .integer || element = .long)))
      (.expiryType table typeName name)
    return {
      name, wireName, type
      default := none
      persist := description.persist
      serialize := description.serialize
      replaceOnWrite := description.replaceOnWrite
      deltaMerge := description.deltaMerge
      compress := description.compress
      rekeyById := description.rekeyById
      expiry := description.expiry }

/-- The counters of a table, which no field may be stored as. -/
structure CounterNames where
  version : String
  revision : String
  deriving DecidableEq, Repr

def TableDescription.counters (description : TableDescription) : CounterNames :=
  ⟨description.versionAttribute.getD "_v", description.revisionAttribute.getD "_rev"⟩

/-- What has been accepted of a table so far. The expiry attribute is that of its expiry field. -/
structure AcceptedFields where
  fields : List FieldSchema
  expiryAttribute : Option String

def AcceptedFields.accept (table : TableDescription) (typeName : String)
    (accepted : AcceptedFields) (description : FieldDescription) :
    Except Error AcceptedFields := do
  let field ← description.resolve table.name typeName
  check (accepted.fields.all fun other => other.name ≠ field.name)
    (.repeatedField typeName field.name)
  if field.persist then
    check (accepted.fields.all fun other => !other.persist || other.wireName ≠ field.wireName)
      (.repeatedWireName typeName field.wireName)
    check (field.wireName ≠ table.counters.version && field.wireName ≠ table.counters.revision)
      (.reservedWireName typeName field.name field.wireName)
  if field.expiry then
    check (typeName = table.rootType) (.nestedExpiry typeName field.name)
    check accepted.expiryAttribute.isNone (.repeatedExpiry table.name)
    return ⟨accepted.fields ++ [field], some field.wireName⟩
  else return ⟨accepted.fields ++ [field], accepted.expiryAttribute⟩

structure AcceptedTypes where
  types : List TypeSchema
  expiryAttribute : Option String

def AcceptedTypes.accept (table : TableDescription) (accepted : AcceptedTypes)
    (description : TypeDescription) : Except Error AcceptedTypes := do
  check (accepted.types.all fun other => other.name ≠ description.name)
    (.repeatedType table.name description.name)
  let fields ← description.fields.foldlM (AcceptedFields.accept table description.name)
    ⟨[], accepted.expiryAttribute⟩
  return ⟨accepted.types ++ [⟨description.name, fields.fields⟩], fields.expiryAttribute⟩

/-! ### References between types -/

/-- Whether a field can hold an id by which objects are stored. -/
def FieldSchema.isId (field : FieldSchema) : Bool :=
  field.type.kind = .scalar && field.type.element.any ElementType.isKey

def checkReference (types : List TypeSchema) (type : TypeSchema) (field : FieldSchema) :
    Except Error Unit :=
  match field.type.element with
  | some (.object child) =>
    match types.find? fun type => type.name = child with
    | none => .error (.schema (.undeclaredObject type.name field.name child))
    | some childType =>
      check (!field.rekeyById || (childType.field? "id").any FieldSchema.isId)
        (.rekeyedWithoutId type.name field.name child)
  | _ => .ok ()

/-- A walk from type to type. The stack holds the names of the types on the way, and a walk that is
given up has no outcome. -/
abbrev Walk := ExceptT Error (StateT (List String) Option)

/-- Goes on to the type of the objects that a field holds, unless that type is on the way. -/
def FieldSchema.follow (walk : String → Walk Unit) (field : FieldSchema) : Walk Unit :=
  match field.type.element with
  | some (.object child) => do
    let stack ← get
    if child ∈ stack then throw (.schema (.cyclic stack child)) else walk child
  | _ => return ()

/-- Follows the references from a type and refuses one that leads back to a type on the way. The walk
is given up where it would be on more than `bound` types at once. -/
def followReferences (types : List TypeSchema) : (bound : Nat) → (typeName : String) → Walk Unit
  | 0, _ => liftM (none : Option Unit)
  | bound + 1, typeName => do
    modify fun stack => stack ++ [typeName]
    let fields := (types.find? fun type => type.name = typeName).elim [] TypeSchema.fields
    fields.forM (FieldSchema.follow (followReferences types bound))
    modify List.dropLast

/-- Refuses a type that leads to a type that leads back to itself. The types on the way differ, so
that no walk is given up. -/
def checkAcyclic (types : List TypeSchema) (typeName : String) : Except Error Unit :=
  match (followReferences types types.length typeName).run.run [] with
  | some (outcome, _) => outcome
  | none => .ok ()

/-! ### Keys and indexes -/

def resolveKey (root : TypeSchema) (table role name : String) : Except Error KeyField :=
  match root.field? name with
  | none => .error (.schema (.undeclaredKey table role name))
  | some field =>
    if !field.persist then .error (.schema (.transientKey table role name))
    else
      match field.type.kind, field.type.element with
      | .scalar, some element =>
        if element.isKey then .ok ⟨field.name, field.wireName, element⟩
        else .error (.schema (.keyType table role name))
      | _, _ => .error (.schema (.keyType table role name))

def IndexDescription.resolve (root : TypeSchema) (table : String)
    (description : IndexDescription) : Except Error IndexSchema := do
  let role := "index `" ++ description.name ++ "`"
  let hash ← resolveKey root table role description.hashKey
  let range ← description.rangeKey.mapM (resolveKey root table role)
  description.projection.forM fun name =>
    check ((root.field? name).any FieldSchema.persist) (.projection table role name)
  return ⟨description.name, ⟨hash, range⟩, description.projection⟩

def acceptIndex (root : TypeSchema) (table : String) (accepted : List IndexSchema)
    (description : IndexDescription) : Except Error (List IndexSchema) := do
  check (accepted.all fun other => other.name ≠ description.name)
    (.repeatedIndex table description.name)
  return accepted ++ [← description.resolve root table]

/-! ### Defaults -/

/-- The field with its default read in its declared type. -/
def FieldSchema.withDefault (table : TableSchema) (typeName : String) (field : FieldSchema)
    (description : FieldDescription) : Except Error FieldSchema :=
  match description.default with
  | none => .ok field
  | some json =>
    match Codec.ofJson table field.type json with
    | .ok value => .ok { field with default := some value }
    | .error error => .error (.schema (.invalidDefault typeName field.name error.text))

def TypeSchema.withDefaults (table : TableSchema) (type : TypeSchema)
    (description : TypeDescription) : Except Error TypeSchema := do
  let fields ← (type.fields.zip description.fields).mapM fun (field, description) =>
    field.withDefault table type.name description
  return { type with fields }

/-! ### Tables -/

def TableDescription.resolve (description : TableDescription) : Except Error TableSchema := do
  let name := description.name
  let counters := description.counters
  check (!name.isEmpty) .unnamedTable
  check (counters.version ≠ counters.revision) (.sharedAttribute name counters.version)
  let accepted ← description.types.foldlM (AcceptedTypes.accept description) ⟨[], none⟩
  let types := accepted.types
  match types.find? fun type => type.name = description.rootType with
  | none => throw (.schema (.undeclaredRoot name description.rootType))
  | some root =>
    types.forM fun type => type.fields.forM (checkReference types type)
    checkAcyclic types description.rootType
    let hash ← resolveKey root name "hash key" description.hashKey
    let range ← description.rangeKey.mapM (resolveKey root name "range key")
    let indexes ← description.indexes.foldlM (acceptIndex root name) []
    let table : TableSchema := {
      name
      namespaceName := description.namespaceName
      rootType := description.rootType
      version := description.version
      optimisticLocking := description.optimisticLocking
      migrationsEnabled := description.migrations
      versionAttribute := counters.version
      revisionAttribute := counters.revision
      keys := ⟨hash, range⟩
      indexes
      expiryAttribute := accepted.expiryAttribute
      types }
    let types ← (types.zip description.types).mapM fun (type, description) =>
      type.withDefaults table description
    return { table with types }

end RecordStore
