import RecordStore.Expression.Builder
import RecordStore.Update.Mutation

/-!
# Views and compiled updates

The pending changes to a record give both the record as it will be once they are written and the
clauses that write them. Fields that are not persisted show in the view alone.
-/

namespace RecordStore

open Expression (Builder Building Compiled)

/-! ### The record once written -/

/-- What a field holds once its value is written. A persisted field without a value reads as its
default. -/
def FieldSchema.settled (field : FieldSchema) (value : Value) : Value :=
  if value.isNull && field.persist then field.absentValue else value

mutual

/-- The value of a field after its pending change. -/
def FieldMutation.latest (table : TableSchema) (field : FieldSchema) (base : Value) :
    FieldMutation → Except Error Value
  | .scalar delta => do delta.merge base (← field.type.requireElement)
  | .collection delta => do delta.merge base (← field.type.requireElement)
  | .object nested mutations => do
    let type ← table.requireType nested.typeName
    let record ← viewFields table type nested nested mutations
    return record.toValue

/-- Sets the changed fields of a record. -/
def FieldMutation.viewFields (table : TableSchema) (type : TypeSchema) (base record : Record) :
    List (String × FieldMutation) → Except Error Record
  | [] => .ok record
  | (name, mutation) :: rest => do
    let field ← type.requireField name
    let value ← mutation.latest table field ((base.get? name).getD .null)
    viewFields table type base (record.set name (field.settled value)) rest

end

/-- The object with its pending changes made. -/
def ObjectUpdate.view (table : TableSchema) (update : ObjectUpdate) : Except Error Record := do
  let type ← table.requireType update.base.typeName
  FieldMutation.viewFields table type update.base update.base update.mutations

/-! ### The clauses that write it -/

/-- Adds the clauses of a nested builder, whose failure is that of the whole. -/
def buildNested (clauses : Building Unit) : Building Unit := do
  let child ← (Builder.nested : StateM Builder Builder)
  match clauses.run.run child with
  | (.ok (), child) => Builder.merge child
  | (.error error, _) => throw error

mutual

/-- Adds the clauses that write a pending change. A change is written relative to the stored value
where the field allows it, and the whole value is written otherwise. -/
def FieldMutation.compile (table : TableSchema) (field : FieldSchema) (path : List String)
    (base : Value) : FieldMutation → Building Unit
  | .scalar delta =>
    if delta.remove then Builder.removePath path
    else
      match delta.set, delta.amount with
      | some value, _ => Builder.setField table path field value
      | none, some amount => do
        let element ← (field.type.requireElement : Except Error ElementType)
        if field.writesRelative then Builder.increment path amount element
        else
          let latest ← (delta.merge base element : Except Error Value)
          Builder.setField table path field latest
      | none, none => return ()
  | .collection delta => do
    if field.writesRelative then Builder.mergeCollection table path field.type base delta
    else
      let element ← (field.type.requireElement : Except Error ElementType)
      let latest ← (delta.merge base element : Except Error Value)
      Builder.setField table path field latest
  | .object nested mutations => do
    let type ← (table.requireType nested.typeName : Except Error TypeSchema)
    if base.isNull then
      let record ← (viewFields table type nested nested mutations : Except Error Record)
      Builder.setField table path field record.toValue
    else buildNested (compileFields table type nested path mutations)

/-- Adds the clauses of every change that is not empty to a persisted field. -/
def FieldMutation.compileFields (table : TableSchema) (type : TypeSchema) (base : Record)
    (path : List String) : List (String × FieldMutation) → Building Unit
  | [] => return ()
  | (name, mutation) :: rest => do
    let field ← (type.requireField name : Except Error FieldSchema)
    if field.persist && !mutation.isEmpty then
      mutation.compile table field (path ++ [field.wireName]) ((base.get? name).getD .null)
    compileFields table type base path rest

end

def ObjectUpdate.compile (table : TableSchema) (update : ObjectUpdate) : Building Unit := do
  let type ← (table.requireType update.base.typeName : Except Error TypeSchema)
  FieldMutation.compileFields table type update.base [] update.mutations

/-! ### Updates of stored records -/

/-- The pending changes to a stored record. -/
structure Update where
  key : Item
  object : ObjectUpdate
  deriving Inhabited

namespace Update

def start (table : TableSchema) (base : Record) : Except Error Update := do
  if base.typeName ≠ table.rootType then
    throw (.contract (.recordType table.name table.rootType base.typeName))
  let key ← table.keyItem base
  let _ ← table.requireType base.typeName
  return ⟨key, ⟨base, true, []⟩⟩

/-- Makes a change; a change that fails may have touched its field. -/
def change (table : TableSchema) (update : Update) (change : FieldChange) :
    Except Error Unit × Update :=
  let (outcome, object) := (change.make table).run.run update.object
  (outcome, { update with object })

/-- Makes changes one after another, up to the first that fails. -/
def changeAll (table : TableSchema) (update : Update) : List FieldChange → Except Error Update
  | [] => .ok update
  | next :: rest =>
    match update.change table next with
    | (.ok (), update) => update.changeAll table rest
    | (.error error, _) => .error error

def isEmpty (update : Update) : Bool :=
  FieldMutation.areEmpty update.object.mutations

/-- Whether sending the update changes the stored item. -/
def writes (table : TableSchema) (update : Update) : Except Error Bool := do
  let ((), builder) ← Builder.run "" (update.object.compile table)
  return builder.hasUpdates

/-- The record once the update is written, its revision included. -/
def view (table : TableSchema) (update : Update) : Except Error Record := do
  let record ← update.object.view table
  if !table.optimisticLocking then return record
  if ← update.writes table then
    return { record with revision := update.object.base.revision + 1 }
  else return record

/-- Requires the stored item to be at the version of the table. Tables that do not migrate accept
every version up to their own. -/
def requireVersion (table : TableSchema) : Building Unit :=
  if table.migrationsEnabled then
    Builder.requireEqual [table.versionAttribute] (Codec.versionAttribute table.version)
  else
    Builder.requireAbsentOrLess [table.versionAttribute]
      (.number (toString (table.version.toNat + 1)))

/-- Advances the revision and requires the stored one to be that of the base, if it was stored. -/
def advanceRevision (table : TableSchema) (observed : Int64) : Building Unit := do
  Builder.setAttribute [table.revisionAttribute] (Codec.revisionAttribute (observed + 1))
  if observed ≠ 0 then
    Builder.requireEqual [table.revisionAttribute] (Codec.revisionAttribute observed)

/-- The clauses of the update with its conditions; nothing when it changes nothing. -/
def build (table : TableSchema) (update : Update) : Building Unit := do
  update.object.compile table
  if (← get).hasUpdates then
    requireVersion table
    if table.optimisticLocking then advanceRevision table update.object.base.revision

def compile (table : TableSchema) (update : Update) : Except Error Compiled := do
  let ((), builder) ← Builder.run "" (update.build table)
  return builder.compile

end Update

end RecordStore
