import RecordStore.Error.Basic

/-!
# Tables, types and fields

The schema of a table: the types of its records, the fields that make up its keys, and the
attributes that count versions and revisions.
-/

namespace RecordStore

structure FieldSchema where
  name : String
  /-- The name of the stored attribute. -/
  wireName : String
  type : ValueType
  default : Option Value
  persist : Bool
  serialize : Bool
  replaceOnWrite : Bool
  deltaMerge : Bool
  compress : Bool
  rekeyById : Bool
  expiry : Bool
  deriving Inhabited, Repr

namespace FieldSchema

/-- Whether an update may be written relative to the stored value. Fields that are compressed,
stored by id or replaced on write are always written whole. -/
def writesRelative (field : FieldSchema) : Bool :=
  field.deltaMerge && !field.replaceOnWrite && !field.compress && !field.rekeyById

/-- The value that an absent attribute stands for. -/
def absentValue (field : FieldSchema) : Value :=
  match field.default with
  | some value => value
  | none =>
    match field.type.kind with
    | .scalar => .null
    | .map => .map []
    | .list => .list []
    | .set => .set []

end FieldSchema

structure TypeSchema where
  name : String
  fields : List FieldSchema
  deriving Inhabited, Repr

namespace TypeSchema

def field? (type : TypeSchema) (name : String) : Option FieldSchema :=
  type.fields.find? fun field => field.name = name

def requireField (type : TypeSchema) (name : String) : Except Error FieldSchema :=
  match type.field? name with
  | some field => .ok field
  | none => .error (.contract (.undeclaredField type.name name))

end TypeSchema

/-- One component of a key. -/
structure KeyField where
  field : String
  wireName : String
  element : ElementType
  deriving DecidableEq, Inhabited, Repr

structure KeySchema where
  hash : KeyField
  range : Option KeyField
  deriving DecidableEq, Inhabited, Repr

def KeySchema.attributes (keys : KeySchema) : List String :=
  keys.hash.wireName :: keys.range.toList.map KeyField.wireName

structure IndexSchema where
  name : String
  keys : KeySchema
  projection : List String
  deriving DecidableEq, Inhabited, Repr

structure TableSchema where
  name : String
  namespaceName : String
  rootType : String
  version : UInt32
  optimisticLocking : Bool
  migrationsEnabled : Bool
  versionAttribute : String
  revisionAttribute : String
  keys : KeySchema
  indexes : List IndexSchema
  expiryAttribute : Option String
  types : List TypeSchema
  deriving Inhabited, Repr

/-- The declared element type, which a collection needs before it can be stored or changed. -/
def ValueType.requireElement (type : ValueType) : Except Error ElementType :=
  match type.element with
  | some element => .ok element
  | none => .error (.contract (.undeclaredElement type.kind))

namespace TableSchema

def type? (table : TableSchema) (name : String) : Option TypeSchema :=
  table.types.find? fun type => type.name = name

def requireType (table : TableSchema) (name : String) : Except Error TypeSchema :=
  match table.type? name with
  | some type => .ok type
  | none => .error (.contract (.unknownType table.name name))

/-- The type of the records that are stored one per item. -/
def root (table : TableSchema) : TypeSchema :=
  (table.type? table.rootType).getD ⟨table.rootType, []⟩

def requireIndex (table : TableSchema) (name : String) : Except Error IndexSchema :=
  match table.indexes.find? fun index => index.name = name with
  | some index => .ok index
  | none => .error (.contract (.unknownIndex table.name name))

/-- The keys of the table, or of one of its indexes. -/
def keysOf (table : TableSchema) : Option String → Except Error KeySchema
  | none => .ok table.keys
  | some index => (table.requireIndex index).map IndexSchema.keys

/-- Whether an attribute counts versions or revisions. -/
def isReserved (table : TableSchema) (name : String) : Bool :=
  name = table.versionAttribute ||
    (table.optimisticLocking && name = table.revisionAttribute)

end TableSchema

end RecordStore
