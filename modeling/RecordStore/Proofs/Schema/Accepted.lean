import RecordStore.Proofs.Schema.Described

/-!
# Accepted tables

What every table that its description was accepted for satisfies: types, fields and stored
attributes have names of their own, fields can be stored as they ask to be, references lead to
declared types, and keys are persisted scalars.
-/

namespace RecordStore

/-- A field whose type allows what the field asks for. -/
structure FieldSchema.Storable (field : FieldSchema) : Prop where
  element : ∃ element, field.type.element = some element
  compressed : field.compress = true → field.type.kind ≠ .scalar
  set : field.type.kind = .set →
    ∀ element, field.type.element = some element → element.isSetElement = true
  rekeyed : field.rekeyById = true →
    field.type.kind = .list ∧ ∃ typeName, field.type.element = some (.object typeName)

/-- Fields that are told apart by their names, and where they are stored by their attributes. -/
structure FieldsDistinct (counters : CounterNames) (fields : List FieldSchema) : Prop where
  names : (fields.map FieldSchema.name).Nodup
  wireNames : ((fields.filter FieldSchema.persist).map FieldSchema.wireName).Nodup
  reserved : ∀ field ∈ fields, field.persist = true →
    field.wireName ≠ counters.version ∧ field.wireName ≠ counters.revision
  storable : ∀ field ∈ fields, field.Storable

theorem TypeSchema.requireField_eq_ok_iff {type : TypeSchema} {name : String}
    {field : FieldSchema} : type.requireField name = .ok field ↔ type.field? name = some field := by
  unfold TypeSchema.requireField
  cases type.field? name <;> simp

theorem TypeSchema.mem_of_requireField {type : TypeSchema} {name : String} {field : FieldSchema}
    (hfield : type.requireField name = .ok field) : field ∈ type.fields :=
  List.mem_of_find?_eq_some (TypeSchema.requireField_eq_ok_iff.mp hfield)

/-- Where names differ, whatever has a name is what is found under it. -/
theorem find?_eq_some_iff_of_nodup {α : Type} {name : α → String} {items : List α}
    (hnames : (items.map name).Nodup) {wanted : String} {item : α} :
    (items.find? fun item => name item = wanted) = some item ↔ item ∈ items ∧ name item = wanted := by
  constructor
  · intro hfound
    exact ⟨List.mem_of_find?_eq_some hfound, by simpa using List.find?_some hfound⟩
  · rintro ⟨hmem, rfl⟩
    cases hother : items.find? fun other => name other = name item with
    | none =>
      have hnone := List.find?_eq_none.mp hother item hmem
      simp at hnone
    | some other =>
      have hname : name other = name item := by simpa using List.find?_some hother
      have hotherMem : other ∈ items := List.mem_of_find?_eq_some hother
      rw [List.inj_on_of_nodup_map hnames hotherMem hmem hname]

theorem TypeSchema.field?_eq_some_iff {type : TypeSchema}
    (hnames : (type.fields.map FieldSchema.name).Nodup) {name : String} {field : FieldSchema} :
    type.field? name = some field ↔ field ∈ type.fields ∧ field.name = name :=
  find?_eq_some_iff_of_nodup hnames

theorem TableSchema.requireType_eq_ok_iff {table : TableSchema} {name : String}
    {type : TypeSchema} : table.requireType name = .ok type ↔ table.type? name = some type := by
  unfold TableSchema.requireType
  cases table.type? name <;> simp

theorem TableSchema.mem_of_requireType {table : TableSchema} {name : String} {type : TypeSchema}
    (htype : table.requireType name = .ok type) : type ∈ table.types :=
  List.mem_of_find?_eq_some (TableSchema.requireType_eq_ok_iff.mp htype)

/-! ### Fields -/

/-- A field as it is while its default has not been read. -/
def FieldSchema.bare (field : FieldSchema) : FieldSchema :=
  { field with default := none }

def TypeSchema.bare (type : TypeSchema) : TypeSchema :=
  { type with fields := type.fields.map FieldSchema.bare }

theorem FieldDescription.Storable.schema {field : FieldDescription} (hstorable : field.Storable) :
    field.schema.Storable where
  element := hstorable.element
  compressed := hstorable.compressed
  set hkind element helement :=
    ElementType.isSetElement_iff.mpr (hstorable.set hkind element helement)
  rekeyed := hstorable.rekeyed

theorem TypeDescription.Valid.distinct {counters : CounterNames} {type : TypeDescription}
    (hvalid : type.Valid counters) : FieldsDistinct counters type.schema.fields where
  names := by
    rw [schema, List.map_map]
    exact hvalid.names
  wireNames := by
    rw [schema, List.filter_map, List.map_map]
    exact hvalid.wires
  reserved := List.forall_mem_map.mpr hvalid.reserved
  storable := List.forall_mem_map.mpr fun field hmem => (hvalid.storable field hmem).schema

/-! ### Defaults -/

section Defaults

variable {table : TableSchema} {typeName : String}

theorem FieldDescription.withDefault_eq_ok_iff {field : FieldDescription} {result : FieldSchema} :
    field.schema.withDefault table typeName field = .ok result ↔
      (field.default = none ∧ result = field.schema) ∨
      ∃ json value, field.default = some json ∧ Codec.ofJson table field.type json = .ok value ∧
        result = { field.schema with default := some value } := by
  unfold FieldSchema.withDefault
  cases field.default with
  | none => simp [eq_comm]
  | some json =>
    dsimp only
    rw [schema_type]
    cases hread : Codec.ofJson table field.type json with
    | error error => simp [hread]
    | ok value => simp [hread, eq_comm]

theorem FieldDescription.bare_withDefault {field : FieldDescription} {result : FieldSchema}
    (hdefault : field.schema.withDefault table typeName field = .ok result) :
    result.bare = field.schema := by
  rcases withDefault_eq_ok_iff.mp hdefault with ⟨-, rfl⟩ | ⟨json, value, -, -, rfl⟩ <;> rfl

theorem TypeDescription.withDefaults_eq_ok_iff {type : TypeDescription} {result : TypeSchema} :
    type.schema.withDefaults table type = .ok result ↔ ∃ fields,
      (type.fields.mapM fun field => field.schema.withDefault table type.name field) = .ok fields ∧
      ⟨type.name, fields⟩ = result := by
  unfold TypeSchema.withDefaults
  rw [bind_eq_ok_iff, schema, mapM_zip_map]
  exact exists_congr fun fields => and_congr_right fun _ => Except.ok.injEq _ _ |>.to_iff

theorem TypeDescription.bare_schema (type : TypeDescription) : type.schema.bare = type.schema := by
  rw [schema, TypeSchema.bare, List.map_map]
  rfl

/-- Reading the defaults of a type changes nothing else. -/
theorem TypeDescription.bare_withDefaults {type : TypeDescription} {result : TypeSchema}
    (hdefaults : type.schema.withDefaults table type = .ok result) : result.bare = type.schema := by
  obtain ⟨fields, hfields, rfl⟩ := withDefaults_eq_ok_iff.mp hdefaults
  rw [TypeSchema.bare, schema, map_eq_of_mapM (fun _ _ => FieldDescription.bare_withDefault) hfields]

end Defaults

/-! ### Tables -/

/-- A key component that names a persisted scalar of the root type. -/
def KeyField.Declared (key : KeyField) (root : TypeSchema) : Prop :=
  ∃ field, root.field? key.field = some field ∧ field.wireName = key.wireName ∧
    field.persist = true ∧ field.type = .scalar key.element ∧ key.element.isKey = true

def TableSchema.counters (table : TableSchema) : CounterNames :=
  ⟨table.versionAttribute, table.revisionAttribute⟩

structure TableSchema.Accepted (table : TableSchema) : Prop where
  counters : table.versionAttribute ≠ table.revisionAttribute
  names : (table.types.map TypeSchema.name).Nodup
  fields : ∀ type ∈ table.types, FieldsDistinct table.counters type.fields
  references : ∀ type ∈ table.types, ∀ field ∈ type.fields, ∀ child,
    field.type.element = some (.object child) → ∃ childType, table.type? child = some childType ∧
      (field.rekeyById = true → (childType.field? "id").any FieldSchema.isId = true)
  root : ∃ root, table.type? table.rootType = some root
  hash : table.keys.hash.Declared table.root
  range : ∀ range ∈ table.keys.range, range.Declared table.root

section Bare

@[simp] theorem FieldSchema.bare_name (field : FieldSchema) : field.bare.name = field.name := rfl

@[simp] theorem FieldSchema.bare_type (field : FieldSchema) : field.bare.type = field.type := rfl

@[simp] theorem FieldSchema.bare_persist (field : FieldSchema) :
    field.bare.persist = field.persist := rfl

@[simp] theorem FieldSchema.bare_wireName (field : FieldSchema) :
    field.bare.wireName = field.wireName := rfl

@[simp] theorem FieldSchema.bare_rekeyById (field : FieldSchema) :
    field.bare.rekeyById = field.rekeyById := rfl

@[simp] theorem TypeSchema.bare_name (type : TypeSchema) : type.bare.name = type.name := rfl

theorem TypeSchema.field?_bare (type : TypeSchema) (name : String) :
    type.bare.field? name = (type.field? name).map FieldSchema.bare := by
  unfold TypeSchema.field? TypeSchema.bare
  rw [List.find?_map]
  rfl

theorem find?_bare (types : List TypeSchema) (name : String) :
    (types.map TypeSchema.bare).find? (fun type => type.name = name) =
      (types.find? fun type => type.name = name).map TypeSchema.bare := by
  rw [List.find?_map]
  rfl

theorem FieldsDistinct.of_bare {counters : CounterNames} {fields : List FieldSchema}
    (hdistinct : FieldsDistinct counters (fields.map FieldSchema.bare)) :
    FieldsDistinct counters fields where
  names := by
    have hnames := hdistinct.names
    rw [List.map_map] at hnames
    exact hnames
  wireNames := by
    have hwire := hdistinct.wireNames
    rw [List.filter_map, List.map_map] at hwire
    exact hwire
  reserved field hmem := hdistinct.reserved field.bare (List.mem_map_of_mem hmem)
  storable field hmem := by
    have hstorable := hdistinct.storable field.bare (List.mem_map_of_mem hmem)
    exact ⟨hstorable.element, hstorable.compressed, hstorable.set, hstorable.rekeyed⟩

theorem KeyField.Declared.of_bare {key : KeyField} {root : TypeSchema}
    (hdeclared : key.Declared root.bare) : key.Declared root := by
  obtain ⟨field, hfield, hwire, hpersist, htype, hkey⟩ := hdeclared
  rw [TypeSchema.field?_bare] at hfield
  obtain ⟨original, horiginal, rfl⟩ := Option.map_eq_some_iff.mp hfield
  exact ⟨original, horiginal, hwire, hpersist, htype, hkey⟩

end Bare

theorem resolveKey_declared {root : TypeSchema} {table role name : String} {key : KeyField}
    (hresolve : resolveKey root table role name = .ok key) : key.Declared root := by
  unfold resolveKey at hresolve
  cases hfield : root.field? name with
  | none =>
    rw [hfield] at hresolve
    cases hresolve
  | some field =>
    rw [hfield] at hresolve
    have hname : field.name = name := by
      simpa using List.find?_some hfield
    cases hpersist : field.persist with
    | false =>
      simp only [hpersist] at hresolve
      cases hresolve
    | true =>
      simp only [hpersist, Bool.not_true, Bool.false_eq_true, if_false] at hresolve
      split at hresolve
      · rename_i element hkind helement
        split at hresolve
        · rename_i hkey
          cases hresolve
          refine ⟨field, hname ▸ hfield, rfl, hpersist, ?_, hkey⟩
          rw [ValueType.scalar, ← hkind, ← helement]
        · cases hresolve
      · cases hresolve

theorem checkReference_ok {types : List TypeSchema} {type : TypeSchema} {field : FieldSchema}
    {child : String} (hcheck : checkReference types type field = .ok ())
    (hchild : field.type.element = some (.object child)) :
    ∃ childType, (types.find? fun type => type.name = child) = some childType ∧
      (field.rekeyById = true → (childType.field? "id").any FieldSchema.isId = true) := by
  unfold checkReference at hcheck
  rw [hchild] at hcheck
  dsimp only at hcheck
  split at hcheck
  · cases hcheck
  · rename_i childType hfound
    refine ⟨childType, hfound, ?_⟩
    intro hrekey
    simpa [hrekey] using check_ok hcheck

theorem exists_of_option_mapM {ε α β : Type} {change : α → Except ε β} {first : Option α}
    {second : Option β} (hchange : first.mapM change = .ok second) {result : β}
    (hmem : result ∈ second) : ∃ item, change item = .ok result := by
  cases first with
  | none =>
    cases hchange
    cases hmem
  | some item =>
    obtain ⟨other, hother, hdone⟩ := bind_eq_ok_iff.mp hchange
    cases hdone
    cases hmem
    exact ⟨item, hother⟩

/-! ### Accepted descriptions -/

namespace TableDescription

variable {description : TableDescription} {root : TypeSchema} {expiryAttribute : Option String}
  {keys : KeySchema} {indexes : List IndexSchema} {table : TableSchema}

/-- The types of the table while their defaults are unread. -/
def schemas (description : TableDescription) : List TypeSchema :=
  description.types.map TypeDescription.schema

/-- The table while the defaults of its types are unread. -/
def unread (description : TableDescription) (expiryAttribute : Option String) (keys : KeySchema)
    (indexes : List IndexSchema) : TableSchema where
  name := description.name
  namespaceName := description.namespaceName
  rootType := description.rootType
  version := description.version
  optimisticLocking := description.optimisticLocking
  migrationsEnabled := description.migrations
  versionAttribute := description.counters.version
  revisionAttribute := description.counters.revision
  keys
  indexes
  expiryAttribute
  types := description.schemas

/-- Everything that is checked of a description, and the table that is made of it. -/
structure Resolves (description : TableDescription) (root : TypeSchema)
    (expiryAttribute : Option String) (keys : KeySchema) (indexes : List IndexSchema)
    (table : TableSchema) : Prop where
  named : description.name ≠ ""
  counters : description.counters.version ≠ description.counters.revision
  names : (description.types.map TypeDescription.name).Nodup
  valid : ∀ type ∈ description.types, type.Valid description.counters
  expiry : ∀ type ∈ description.types, ∀ field ∈ type.fields, field.expiry = true →
    type.name = description.rootType
  attribute_eq : expiryAttribute.toList =
    expiryWires (description.types.flatMap TypeDescription.fields)
  found : (description.schemas.find? fun type => type.name = description.rootType) = some root
  references : description.schemas.forM
    (fun type => type.fields.forM (checkReference description.schemas type)) = .ok ()
  acyclic : checkAcyclic description.schemas description.rootType = .ok ()
  hash : resolveKey root description.name "hash key" description.hashKey = .ok keys.hash
  range : description.rangeKey.mapM (resolveKey root description.name "range key") = .ok keys.range
  accepted : description.indexes.foldlM (acceptIndex root description.name) [] = .ok indexes
  defaults : (description.types.mapM fun type =>
    type.schema.withDefaults (description.unread expiryAttribute keys indexes) type) =
    .ok table.types
  table_eq : table = { description.unread expiryAttribute keys indexes with types := table.types }

theorem resolve_eq_ok_iff : description.resolve = .ok table ↔
    ∃ root expiryAttribute keys indexes,
      description.Resolves root expiryAttribute keys indexes table := by
  unfold resolve
  rw [check_bind_eq_ok_iff, check_bind_eq_ok_iff, bind_eq_ok_iff]
  constructor
  · rintro ⟨hnamed, hcounters, ⟨types, expiryAttribute⟩, htypes, hresolve⟩
    obtain ⟨hnames, hvalid, hexpiry, haccepted, hattribute⟩ :=
      foldlM_acceptTypes_eq_ok_iff.mp htypes
    cases haccepted
    dsimp only at hresolve
    split at hresolve
    · cases hresolve
    · rename_i root hroot
      obtain ⟨⟨⟩, hreferences, hresolve⟩ := bind_eq_ok_iff.mp hresolve
      obtain ⟨⟨⟩, hacyclic, hresolve⟩ := bind_eq_ok_iff.mp hresolve
      obtain ⟨hash, hhash, hresolve⟩ := bind_eq_ok_iff.mp hresolve
      obtain ⟨range, hrange, hresolve⟩ := bind_eq_ok_iff.mp hresolve
      obtain ⟨indexes, hindexes, hresolve⟩ := bind_eq_ok_iff.mp hresolve
      obtain ⟨types, hdefaults, hresolve⟩ := bind_eq_ok_iff.mp hresolve
      cases hresolve
      rw [mapM_zip_map] at hdefaults
      exact ⟨root, expiryAttribute, ⟨hash, range⟩, indexes, by simpa using hnamed,
        by simpa using hcounters, hnames, hvalid, hexpiry, hattribute, hroot, hreferences, hacyclic,
        hhash, hrange, hindexes, hdefaults, rfl⟩
  · rintro ⟨root, expiryAttribute, ⟨hash, range⟩, indexes, hresolves⟩
    refine ⟨by simpa using hresolves.named, by simpa using hresolves.counters,
      ⟨description.schemas, expiryAttribute⟩, foldlM_acceptTypes_eq_ok_iff.mpr ⟨hresolves.names,
        hresolves.valid, hresolves.expiry, rfl, hresolves.attribute_eq⟩, ?_⟩
    dsimp only
    rw [hresolves.found]
    dsimp only
    rw [hresolves.references, ok_bind, hresolves.acyclic, ok_bind, hresolves.hash, ok_bind,
      hresolves.range, ok_bind, hresolves.accepted, ok_bind]
    refine bind_eq_ok_iff.mpr ⟨table.types, mapM_zip_map.trans hresolves.defaults, ?_⟩
    exact congrArg Except.ok hresolves.table_eq.symm

namespace Resolves

/-- Reading the defaults changes nothing else. -/
theorem bare (hresolves : description.Resolves root expiryAttribute keys indexes table) :
    table.types.map TypeSchema.bare = description.schemas :=
  map_eq_of_mapM (fun _ _ => TypeDescription.bare_withDefaults) hresolves.defaults

theorem mem_bare (hresolves : description.Resolves root expiryAttribute keys indexes table)
    {type : TypeSchema} (hmem : type ∈ table.types) : type.bare ∈ description.schemas := by
  rw [← hresolves.bare]
  exact List.mem_map_of_mem hmem

theorem find? (hresolves : description.Resolves root expiryAttribute keys indexes table)
    {name : String} {type : TypeSchema}
    (hfound : (description.schemas.find? fun type => type.name = name) = some type) :
    ∃ read, table.type? name = some read ∧ read.bare = type := by
  rw [← hresolves.bare, find?_bare] at hfound
  exact Option.map_eq_some_iff.mp hfound

end Resolves

end TableDescription

/-- Every accepted description makes a table whose names tell apart what they name. -/
theorem TableDescription.accepted_of_resolve {description : TableDescription}
    {table : TableSchema} (hresolve : description.resolve = .ok table) : table.Accepted := by
  obtain ⟨root, expiryAttribute, keys, indexes, hresolves⟩ := resolve_eq_ok_iff.mp hresolve
  obtain ⟨rootType, hrootType, hrootBare⟩ := hresolves.find? hresolves.found
  have hcounters : table.counters = description.counters := by
    rw [hresolves.table_eq]
    rfl
  have hname : table.rootType = description.rootType := by
    rw [hresolves.table_eq]
    rfl
  have hkeys : table.keys = keys := by
    rw [hresolves.table_eq]
    rfl
  have hdeclared : ∀ key : KeyField, key.Declared root → key.Declared table.root := by
    intro key hkey
    rw [← hrootBare] at hkey
    rw [TableSchema.root, hname, hrootType]
    exact hkey.of_bare
  refine ⟨?_, ?_, ?_, ?_, ⟨rootType, hname ▸ hrootType⟩, ?_, ?_⟩
  · change table.counters.version ≠ table.counters.revision
    rw [hcounters]
    exact hresolves.counters
  · have hnames : (description.schemas.map TypeSchema.name).Nodup := by
      rw [schemas, List.map_map]
      exact hresolves.names
    rw [← hresolves.bare, List.map_map] at hnames
    exact hnames
  · intro type hmem
    obtain ⟨described, hdescribed, hbare⟩ := List.mem_map.mp (hresolves.mem_bare hmem)
    have hdistinct := (hresolves.valid described hdescribed).distinct
    rw [hbare] at hdistinct
    rw [hcounters]
    exact hdistinct.of_bare
  · intro type hmem field hfield child hchild
    have hcheck := forM_ok (forM_ok hresolves.references _ (hresolves.mem_bare hmem)) field.bare
      (List.mem_map_of_mem hfield)
    obtain ⟨childType, hfound, hid⟩ := checkReference_ok hcheck hchild
    obtain ⟨original, horiginal, rfl⟩ := hresolves.find? hfound
    refine ⟨original, horiginal, ?_⟩
    intro hrekey
    have hbareId := hid hrekey
    rw [TypeSchema.field?_bare, Option.any_map] at hbareId
    exact hbareId
  · rw [hkeys]
    exact hdeclared _ (resolveKey_declared hresolves.hash)
  · intro component hmem
    rw [hkeys] at hmem
    obtain ⟨name, hkey⟩ := exists_of_option_mapM hresolves.range hmem
    exact hdeclared component (resolveKey_declared hkey)

end RecordStore
