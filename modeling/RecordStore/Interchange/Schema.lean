import RecordStore.Interchange.Error
import RecordStore.Interchange.Condition
import RecordStore.Migration.Edit
import RecordStore.Schema.Registry

/-!
# Schemas and migrations as JSON

Migrations are declared as lists of edits. A registered table is written with what was resolved from
its description.
-/

namespace RecordStore.Interchange

open Reading

def readEdit : Json → Reading ItemEdit
  | .array [.string "set", content] => do
    let (name, value) ← pair text readAttribute content
    return .set name value
  | .array [.string "remove", content] => (text content).map .remove
  | .array [.string "rename", content] => do
    let (source, target) ← pair text text content
    return .rename source target
  | .array [.string "copy", content] => do
    let (source, target) ← pair text text content
    return .copy source target
  | .array [.string "log", content] => (text content).map .log
  | .array [.string "fail", content] => (text content).map .fail
  | _ => .error "edit expected"

/-- A migration step with the name of its table. -/
def readMigration (json : Json) : Reading (String × Migration) := do
  let version ← required natural json "version"
  let sequence ← defaulted natural 0 json "sequence"
  let edits ← defaulted (list readEdit) [] json "migrate"
  let finishing ← defaulted (list readEdit) [] json "post"
  return (← required text json "table",
    .ofEdits (UInt32.ofNat version) (UInt32.ofNat sequence) edits finishing)

def keyFieldJson (key : KeyField) : Json :=
  textsJson [key.field, key.wireName, key.element.text]

def keySchemaJson (keys : KeySchema) : Json :=
  .object [("hash", keyFieldJson keys.hash), ("range", optionJson keyFieldJson keys.range)]

def indexJson (index : IndexSchema) : Json :=
  .object [("name", .string index.name), ("keys", keySchemaJson index.keys),
    ("projection", textsJson index.projection)]

def fieldJson (field : FieldSchema) : Json :=
  .object [("name", .string field.name), ("wire", .string field.wireName),
    ("type", .string field.type.text), ("default", optionJson valueJson field.default),
    ("absent", valueJson field.absentValue), ("relative", .boolean field.writesRelative),
    ("flags", .array ([field.persist, field.serialize, field.replaceOnWrite, field.deltaMerge,
      field.compress, field.rekeyById, field.expiry].map .boolean))]

def typeJson (type : TypeSchema) : Json :=
  .object [("name", .string type.name), ("fields", .array (type.fields.map fieldJson))]

def tableJson (registry : Registry) (table : TableSchema) : Json :=
  .object [("name", .string table.name), ("namespace", .string table.namespaceName),
    ("root_type", .string table.rootType), ("version", .integer table.version.toNat),
    ("locking", .boolean table.optimisticLocking),
    ("migrations_enabled", .boolean table.migrationsEnabled),
    ("version_attribute", .string table.versionAttribute),
    ("revision_attribute", .string table.revisionAttribute),
    ("expiry_attribute", optionJson .string table.expiryAttribute),
    ("keys", keySchemaJson table.keys), ("indexes", .array (table.indexes.map indexJson)),
    ("types", .array (table.types.map typeJson)),
    ("migrations", .array ((registry.migrationsOf table.name).map fun step =>
      .array [.integer step.version.toNat, .integer step.sequence.toNat])),
    ("root", .string table.root.name)]

def upgradeJson : Upgrade → Json
  | .current => .string "current"
  | .unmigrated stored => .object [("unmigrated", .integer stored.toNat)]
  | .migrated stored => .object [("migrated", .integer stored.toNat)]

def migrationStateJson : MigrationState → Json
  | .current => .string "current"
  | .stale stored => .object [("stale", .integer stored.toNat)]
  | .incompatible stored => .object [("incompatible", .integer stored.toNat)]

end RecordStore.Interchange
