import RecordStore.Proofs.Schema.Acyclic
import RecordStore.Proofs.Schema.Document

/-!
# Valid descriptions

What makes a description valid is said condition by condition, of the description alone. A table is
made of a description exactly when every condition holds, whatever else the checks have to keep in
mind while they pass over it.
-/

namespace RecordStore

/-! ### Conditions -/

/-- A single value that can be compared, as the components of keys and the ids of objects are. -/
def FieldDescription.HoldsKey (field : FieldDescription) : Prop :=
  field.kind = .scalar ∧ ∃ element ∈ field.element, element ∈ ElementType.comparable

/-- Whether a field of the type of one name holds objects of the type of another. -/
def Refers (types : List TypeDescription) (source target : String) : Prop :=
  ∃ type ∈ types, type.name = source ∧
    ∃ field ∈ type.fields, field.element = some (.object target)

namespace TableDescription

variable (description : TableDescription)

/-- Whether a field of the root type is stored under a name. -/
def Persists (name : String) : Prop :=
  ∃ field, Declares description.types description.rootType name field ∧ field.persist = true

/-- Whether a field of the root type can be the component of a key. -/
def HasKey (name : String) : Prop :=
  ∃ field, Declares description.types description.rootType name field ∧ field.persist = true ∧
    field.HoldsKey

end TableDescription

structure IndexDescription.Valid (table : TableDescription) (index : IndexDescription) : Prop where
  hash : table.HasKey index.hashKey
  range : ∀ name ∈ index.rangeKey, table.HasKey name
  projection : ∀ name ∈ index.projection, table.Persists name

structure TableDescription.Valid (description : TableDescription) : Prop where
  named : description.name ≠ ""
  counters : description.counters.version ≠ description.counters.revision
  typeNames : (description.types.map TypeDescription.name).Nodup
  types : ∀ type ∈ description.types, type.Valid description.counters
  references : ∀ type ∈ description.types, ∀ field ∈ type.fields, ∀ child,
    field.element = some (.object child) → child ∈ description.types.map TypeDescription.name
  rekeyed : ∀ type ∈ description.types, ∀ field ∈ type.fields, field.rekeyById = true → ∀ child,
    field.element = some (.object child) →
    ∃ id, Declares description.types child "id" id ∧ id.HoldsKey
  root : description.rootType ∈ description.types.map TypeDescription.name
  acyclic : AcyclicFrom (Refers description.types) description.rootType
  expiry : ∀ type ∈ description.types, ∀ field ∈ type.fields, field.expiry = true →
    type.name = description.rootType
  expiryOnce : ((description.types.flatMap TypeDescription.fields).filter
    FieldDescription.expiry).length ≤ 1
  hash : description.HasKey description.hashKey
  range : ∀ name ∈ description.rangeKey, description.HasKey name
  indexNames : (description.indexes.map IndexDescription.name).Nodup
  indexes : ∀ index ∈ description.indexes, index.Valid description
  defaults : ∀ type ∈ description.types, ∀ field ∈ type.fields, ∀ json ∈ field.default,
    json.OfType description.types field.type

/-! ### References -/

section References

variable {types : List TypeDescription} {type : TypeDescription} {name : String}

theorem Named.any_field?_iff (hnamed : Named types) (hmem : type ∈ types)
    {test : FieldSchema → Bool} : (type.schema.field? name).any test = true ↔
      ∃ field, Declares types type.name name field ∧ test field.schema = true := by
  rw [Option.any_eq_true]
  constructor
  · rintro ⟨found, hfound, htest⟩
    obtain ⟨field, hdeclared, rfl⟩ := (hnamed.field?_eq_some_iff hmem).mp hfound
    exact ⟨field, hdeclared, htest⟩
  · rintro ⟨field, hdeclared, htest⟩
    exact ⟨field.schema, (hnamed.field?_eq_some_iff hmem).mpr ⟨field, hdeclared, rfl⟩, htest⟩

theorem FieldDescription.isId_schema_iff {field : FieldDescription} :
    field.schema.isId = true ↔ field.HoldsKey := by
  change (decide (field.kind = .scalar) && field.element.any ElementType.isKey) = true ↔ _
  rw [Bool.and_eq_true, decide_eq_true_eq, Option.any_eq_true]
  exact and_congr_right fun _ => exists_congr fun _ => and_congr_right fun _ =>
    ElementType.isKey_iff

theorem checkReference_eq_ok_iff (hnamed : Named types) {holder : TypeSchema}
    {field : FieldDescription} :
    checkReference (types.map TypeDescription.schema) holder field.schema = .ok () ↔
      ∀ child, field.element = some (.object child) → child ∈ types.map TypeDescription.name ∧
        (field.rekeyById = true → ∃ id, Declares types child "id" id ∧ id.HoldsKey) := by
  unfold checkReference
  rw [FieldDescription.schema_type, FieldDescription.type]
  split
  · rename_i child hchild
    dsimp only at hchild
    rw [hchild]
    split
    · rename_i hnone
      exact iff_of_false (by rintro ⟨⟩) fun hall =>
        Named.find?_eq_none_iff.mp hnone (hall child rfl).1
    · rename_i found hfound
      obtain ⟨type, hmem, rfl, rfl⟩ := hnamed.find?_eq_some_iff.mp hfound
      rw [check_eq_ok_iff, Bool.or_eq_true, hnamed.any_field?_iff hmem]
      simp only [FieldDescription.isId_schema_iff, FieldDescription.schema_rekeyById]
      constructor
      · rintro hid child ⟨⟩
        exact ⟨List.mem_map_of_mem hmem, fun hasks => by simpa [hasks] using hid⟩
      · intro hall
        cases hasks : field.rekeyById with
        | false => exact .inl rfl
        | true => exact .inr ((hall _ rfl).2 hasks)
  · rename_i hother
    exact ⟨fun _ child hchild => absurd hchild (hother child), fun _ => rfl⟩

theorem references_iff (hnamed : Named types) {source target : String} :
    References (types.map TypeDescription.schema) source target ↔ Refers types source target := by
  unfold References
  cases hfound : (types.map TypeDescription.schema).find? fun type => type.name = source with
  | none =>
    exact ⟨fun ⟨_, hmem, _⟩ => (nomatch hmem), fun ⟨type, hmem, hname, _⟩ =>
      absurd (List.mem_map.mpr ⟨type, hmem, hname⟩) (Named.find?_eq_none_iff.mp hfound)⟩
  | some found =>
    obtain ⟨type, hmem, rfl, rfl⟩ := hnamed.find?_eq_some_iff.mp hfound
    constructor
    · rintro ⟨_, hheld, htarget⟩
      obtain ⟨field, hfield, rfl⟩ := List.mem_map.mp hheld
      exact ⟨type, hmem, rfl, field, hfield, htarget⟩
    · rintro ⟨other, hother, hsame, field, hfield, htarget⟩
      rw [hnamed.eq_of_name hother hmem hsame] at hfield
      exact ⟨field.schema, List.mem_map_of_mem hfield, htarget⟩

end References

/-! ### Keys and indexes -/

section Keys

variable {root : TypeSchema} {table role name : String}

theorem exists_resolveKey_iff_any : (∃ key, resolveKey root table role name = .ok key) ↔
    (root.field? name).any (fun field => field.persist && field.isId) = true := by
  unfold resolveKey
  cases root.field? name with
  | none => simp
  | some field =>
    cases hpersist : field.persist with
    | false => simp [hpersist]
    | true =>
      rcases htype : field.type with ⟨_ | _ | _ | _, _ | element⟩
      case scalar.some =>
        cases hkey : element.isKey <;> simp [hpersist, htype, hkey, FieldSchema.isId]
      all_goals simp [hpersist, htype, FieldSchema.isId]

theorem IndexDescription.name_of_resolve {index : IndexDescription} {result : IndexSchema}
    (hresolve : index.resolve root table = .ok result) : result.name = index.name := by
  obtain ⟨hash, -, hresolve⟩ := bind_eq_ok_iff.mp hresolve
  obtain ⟨range, -, hresolve⟩ := bind_eq_ok_iff.mp hresolve
  obtain ⟨_, -, hresolve⟩ := bind_eq_ok_iff.mp hresolve
  cases hresolve
  rfl

theorem forall_name_ne_iff {indexes : List IndexDescription} {results : List IndexSchema}
    (hresolve : indexes.mapM (IndexDescription.resolve root table) = .ok results) :
    (∀ result ∈ results, result.name ≠ name) ↔ ∀ index ∈ indexes, index.name ≠ name := by
  have hnames : results.map IndexSchema.name = indexes.map IndexDescription.name :=
    map_eq_of_mapM (fun _ _ => IndexDescription.name_of_resolve) hresolve
  have hmapped : (∀ held ∈ results.map IndexSchema.name, held ≠ name) ↔
      ∀ held ∈ indexes.map IndexDescription.name, held ≠ name := by rw [hnames]
  rwa [List.forall_mem_map, List.forall_mem_map] at hmapped

theorem acceptIndex_eq_ok_iff {accepted next : List IndexSchema} {index : IndexDescription} :
    acceptIndex root table accepted index = .ok next ↔
      (∀ other ∈ accepted, other.name ≠ index.name) ∧
      ∃ last, index.resolve root table = .ok last ∧ accepted ++ [last] = next := by
  unfold acceptIndex
  rw [check_bind_eq_ok_iff, bind_eq_ok_iff, List.all_eq_true]
  simp only [decide_eq_true_eq]
  exact and_congr_right fun _ => exists_congr fun last => and_congr_right fun _ =>
    (Except.ok.injEq _ _).to_iff

/-- The indexes are resolved one by one, and their names told apart on the way. -/
theorem foldlM_acceptIndex_eq_ok_iff {indexes : List IndexDescription} {result : List IndexSchema} :
    indexes.foldlM (acceptIndex root table) [] = .ok result ↔
      (indexes.map IndexDescription.name).Nodup ∧
      indexes.mapM (IndexDescription.resolve root table) = .ok result := by
  induction indexes using List.reverseRecOn generalizing result with
  | nil =>
    constructor
    · intro hdone
      exact ⟨List.nodup_nil, hdone⟩
    · exact And.right
  | append_singleton indexes index ih =>
    rw [foldlM_concat_eq_ok_iff, mapM_concat_eq_ok_iff, nodup_map_concat_iff]
    constructor
    · rintro ⟨before, hbefore, haccept⟩
      obtain ⟨hnames, hall⟩ := ih.mp hbefore
      obtain ⟨hnew, last, hlast, hdone⟩ := acceptIndex_eq_ok_iff.mp haccept
      exact ⟨⟨hnames, (forall_name_ne_iff hall).mp hnew⟩, before, last, hall, hlast, hdone⟩
    · rintro ⟨⟨hnames, hnew⟩, before, last, hall, hlast, hdone⟩
      exact ⟨before, ih.mpr ⟨hnames, hall⟩, acceptIndex_eq_ok_iff.mpr
        ⟨(forall_name_ne_iff hall).mpr hnew, last, hlast, hdone⟩⟩

theorem exists_option_mapM_iff {ε α β : Type} {change : α → Except ε β} {first : Option α} :
    (∃ second, first.mapM change = .ok second) ↔
      ∀ item ∈ first, ∃ result, change item = .ok result := by
  cases first with
  | none => exact ⟨fun _ _ hmem => (nomatch hmem), fun _ => ⟨none, rfl⟩⟩
  | some item =>
    rw [Option.mapM_some]
    refine exists_map_eq_ok_iff.trans ⟨?_, fun hall => hall item rfl⟩
    rintro hitem _ ⟨⟩
    exact hitem

end Keys

section Root

variable {description : TableDescription} {root : TypeDescription} {table role name : String}

theorem exists_resolveKey_iff (hnamed : Named description.types) (hmem : root ∈ description.types)
    (hroot : root.name = description.rootType) :
    (∃ key, resolveKey root.schema table role name = .ok key) ↔ description.HasKey name := by
  rw [exists_resolveKey_iff_any, hnamed.any_field?_iff hmem, hroot]
  simp only [Bool.and_eq_true, FieldDescription.schema_persist, FieldDescription.isId_schema_iff]
  rfl

theorem exists_range_iff (hnamed : Named description.types) (hmem : root ∈ description.types)
    (hroot : root.name = description.rootType) {wanted : Option String} :
    (∃ range, wanted.mapM (resolveKey root.schema table role) = .ok range) ↔
      ∀ name ∈ wanted, description.HasKey name :=
  exists_option_mapM_iff.trans (forall₂_congr fun _ _ => exists_resolveKey_iff hnamed hmem hroot)

theorem exists_index_iff (hnamed : Named description.types) (hmem : root ∈ description.types)
    (hroot : root.name = description.rootType) {index : IndexDescription} :
    (∃ result, index.resolve root.schema table = .ok result) ↔ index.Valid description := by
  unfold IndexDescription.resolve
  simp only [exists_bind_eq_ok_iff]
  generalize "index `" ++ index.name ++ "`" = role
  have hproject : ∀ name, SchemaFault.check ((root.schema.field? name).any FieldSchema.persist)
      (.projection table role name) = .ok () ↔ description.Persists name := by
    intro name
    rw [check_eq_ok_iff, hnamed.any_field?_iff hmem, hroot]
    rfl
  constructor
  · rintro ⟨hash, hhash, range, hrange, ⟨⟩, hprojection, -⟩
    refine ⟨(exists_resolveKey_iff hnamed hmem hroot).mp ⟨hash, hhash⟩, fun name hname => ?_,
      fun name hname => ?_⟩
    · exact (exists_range_iff hnamed hmem hroot).mp ⟨range, hrange⟩ name hname
    · exact (hproject name).mp (forM_ok hprojection name hname)
  · rintro ⟨hhash, hrange, hprojection⟩
    obtain ⟨hash, hhash⟩ := (exists_resolveKey_iff hnamed hmem hroot).mpr hhash
    obtain ⟨range, hrange⟩ := (exists_range_iff hnamed hmem hroot).mpr hrange
    have hall := forM_eq_ok fun name hname => (hproject name).mpr (hprojection name hname)
    exact ⟨hash, hhash, range, hrange, (), hall, _, rfl⟩

end Root

/-! ### Defaults -/

section Defaults

variable {types : List TypeDescription} {table : TableSchema}

theorem exists_withDefault_iff (hnamed : Named types)
    (htypes : table.types = types.map TypeDescription.schema) {typeName : String}
    (field : FieldDescription) :
    (∃ result, field.schema.withDefault table typeName field = .ok result) ↔
      ∀ json ∈ field.default, json.OfType types field.type := by
  simp only [FieldDescription.withDefault_eq_ok_iff]
  cases field.default with
  | none => exact ⟨fun _ _ hmem => (nomatch hmem), fun _ => ⟨_, .inl ⟨rfl, rfl⟩⟩⟩
  | some json =>
    have hread := Codec.exists_ofJson_iff hnamed htypes field.type json
    constructor
    · rintro ⟨_, ⟨⟨⟩, _⟩ | ⟨_, value, ⟨⟩, hvalue, _⟩⟩ _ ⟨⟩
      exact hread.mp ⟨value, hvalue⟩
    · intro hall
      obtain ⟨value, hvalue⟩ := hread.mpr (hall json rfl)
      exact ⟨_, .inr ⟨json, value, rfl, hvalue, rfl⟩⟩

theorem exists_withDefaults_iff (hnamed : Named types)
    (htypes : table.types = types.map TypeDescription.schema) (type : TypeDescription) :
    (∃ result, type.schema.withDefaults table type = .ok result) ↔
      ∀ field ∈ type.fields, ∀ json ∈ field.default, json.OfType types field.type := by
  have hfields : (∃ fields, (type.fields.mapM fun field =>
      field.schema.withDefault table type.name field) = .ok fields) ↔
      ∀ field ∈ type.fields, ∀ json ∈ field.default, json.OfType types field.type :=
    exists_mapM_iff.trans (forall₂_congr fun field _ => exists_withDefault_iff hnamed htypes field)
  rw [← hfields]
  simp only [TypeDescription.withDefaults_eq_ok_iff]
  exact ⟨fun ⟨_, fields, hall, _⟩ => ⟨fields, hall⟩, fun ⟨fields, hall⟩ => ⟨_, fields, hall, rfl⟩⟩

end Defaults

/-! ### Tables -/

namespace TableDescription

variable {description : TableDescription}

theorem forM_checkReference_iff (hnamed : Named description.types) :
    description.schemas.forM
      (fun type => type.fields.forM (checkReference description.schemas type)) = .ok () ↔
    ∀ type ∈ description.types, ∀ field ∈ type.fields, ∀ child,
      field.element = some (.object child) → child ∈ description.types.map TypeDescription.name ∧
        (field.rekeyById = true → ∃ id, Declares description.types child "id" id ∧ id.HoldsKey) := by
  simp only [forM_eq_ok_iff]
  refine List.forall_mem_map.trans (forall₂_congr fun type _ => ?_)
  exact List.forall_mem_map.trans (forall₂_congr fun field _ => checkReference_eq_ok_iff hnamed)

theorem checkAcyclic_schemas_iff (hnamed : Named description.types)
    (hreferences : ∀ type ∈ description.types, ∀ field ∈ type.fields, ∀ child,
      field.element = some (.object child) → child ∈ description.types.map TypeDescription.name)
    (hroot : description.rootType ∈ description.types.map TypeDescription.name) :
    checkAcyclic description.schemas description.rootType = .ok () ↔
      AcyclicFrom (Refers description.types) description.rootType := by
  have hrefers : References description.schemas = Refers description.types := by
    funext source target
    exact propext (references_iff hnamed)
  have hnames : description.schemas.map TypeSchema.name =
      description.types.map TypeDescription.name := List.map_map
  rw [checkAcyclic_eq_ok_iff, hrefers]
  · refine List.forall_mem_map.mpr fun type htype => List.forall_mem_map.mpr fun field hfield => ?_
    exact hnames ▸ hreferences type htype field hfield
  · exact hnames ▸ hroot

/-- What the checks let through satisfies every condition. -/
theorem Resolves.valid_description {root : TypeSchema} {expiryAttribute : Option String}
    {keys : KeySchema} {indexes : List IndexSchema} {table : TableSchema}
    (hresolves : description.Resolves root expiryAttribute keys indexes table) :
    description.Valid := by
  have hnamed : Named description.types := .of_valid hresolves.names hresolves.valid
  obtain ⟨root, hmem, hroot, rfl⟩ := hnamed.find?_eq_some_iff.mp hresolves.found
  have hreferences := (forM_checkReference_iff hnamed).mp hresolves.references
  have hdeclared : description.rootType ∈ description.types.map TypeDescription.name :=
    hroot ▸ List.mem_map_of_mem hmem
  have hindexes := foldlM_acceptIndex_eq_ok_iff.mp hresolves.accepted
  have hchildren : ∀ type ∈ description.types, ∀ field ∈ type.fields, ∀ child,
      field.element = some (.object child) → child ∈ description.types.map TypeDescription.name :=
    fun type htype field hfield child hchild =>
      (hreferences type htype field hfield child hchild).1
  exact {
    named := hresolves.named
    counters := hresolves.counters
    typeNames := hresolves.names
    types := hresolves.valid
    references := hchildren
    rekeyed := fun type htype field hfield hasks child hchild =>
      (hreferences type htype field hfield child hchild).2 hasks
    root := hdeclared
    acyclic := (checkAcyclic_schemas_iff hnamed hchildren hdeclared).mp hresolves.acyclic
    expiry := hresolves.expiry
    expiryOnce := expiryWires_length _ ▸ exists_toList_eq_iff.mp ⟨_, hresolves.attribute_eq⟩
    hash := (exists_resolveKey_iff hnamed hmem hroot).mp ⟨_, hresolves.hash⟩
    range := (exists_range_iff hnamed hmem hroot).mp ⟨_, hresolves.range⟩
    indexNames := hindexes.1
    indexes := fun index hindex => (exists_index_iff hnamed hmem hroot).mp
      (exists_mapM_iff.mp ⟨_, hindexes.2⟩ index hindex)
    defaults := fun type htype => (exists_withDefaults_iff hnamed rfl type).mp
      (exists_mapM_iff.mp ⟨_, hresolves.defaults⟩ type htype) }

/-- The checks refuse no description that satisfies every condition. -/
theorem Valid.exists_resolve (hvalid : description.Valid) :
    ∃ table, description.resolve = .ok table := by
  have hnamed : Named description.types := .of_valid hvalid.typeNames hvalid.types
  obtain ⟨root, hmem, hroot⟩ := List.mem_map.mp hvalid.root
  obtain ⟨expiryAttribute, hattribute⟩ :=
    exists_toList_eq_iff.mpr ((expiryWires_length _).symm ▸ hvalid.expiryOnce)
  obtain ⟨hash, hhash⟩ := (exists_resolveKey_iff hnamed hmem hroot).mpr hvalid.hash
  obtain ⟨range, hrange⟩ := (exists_range_iff hnamed hmem hroot).mpr hvalid.range
  obtain ⟨indexes, hindexes⟩ := exists_mapM_iff.mpr fun index hindex =>
    (exists_index_iff hnamed hmem hroot).mpr (hvalid.indexes index hindex)
  have hunread : (description.unread expiryAttribute ⟨hash, range⟩ indexes).types =
      description.types.map TypeDescription.schema := rfl
  obtain ⟨types, htypes⟩ := exists_mapM_iff.mpr fun type htype =>
    (exists_withDefaults_iff hnamed hunread type).mpr (hvalid.defaults type htype)
  exact ⟨{ description.unread expiryAttribute ⟨hash, range⟩ indexes with types },
    resolve_eq_ok_iff.mpr ⟨root.schema, expiryAttribute, ⟨hash, range⟩, indexes, {
    named := hvalid.named
    counters := hvalid.counters
    names := hvalid.typeNames
    valid := hvalid.types
    expiry := hvalid.expiry
    attribute_eq := hattribute
    found := hnamed.find?_eq_some_iff.mpr ⟨root, hmem, hroot, rfl⟩
    references := (forM_checkReference_iff hnamed).mpr fun type htype field hfield child hchild =>
      ⟨hvalid.references type htype field hfield child hchild,
        fun hasks => hvalid.rekeyed type htype field hfield hasks child hchild⟩
    acyclic := (checkAcyclic_schemas_iff hnamed hvalid.references hvalid.root).mpr hvalid.acyclic
    hash := hhash
    range := hrange
    accepted := foldlM_acceptIndex_eq_ok_iff.mpr ⟨hvalid.indexNames, hindexes⟩
    defaults := htypes
    table_eq := rfl }⟩⟩

/-- A table is made of exactly the valid descriptions. -/
theorem exists_resolve_iff :
    (∃ table, description.resolve = .ok table) ↔ description.Valid := by
  constructor
  · rintro ⟨table, hresolve⟩
    obtain ⟨_, _, _, _, hresolves⟩ := resolve_eq_ok_iff.mp hresolve
    exact hresolves.valid_description
  · exact Valid.exists_resolve

end TableDescription

/-! ### Parcels -/

/-- Parcels whose addresses hold objects of the type of a name: a country, or the parcel again. -/
def parcelDescription (held : String) : TableDescription where
  name := "parcels"
  namespaceName := ""
  rootType := "Parcel"
  hashKey := "id"
  rangeKey := none
  version := 1
  optimisticLocking := true
  migrations := false
  versionAttribute := none
  revisionAttribute := none
  types := [
    ⟨"Parcel", [
      ⟨"id", none, .scalar, some .string, none, true, true, false, false, false, false, false⟩,
      ⟨"sender", none, .scalar, some (.object "Address"), none, true, true, false, false, false,
        false, false⟩,
      ⟨"receiver", some "to", .scalar, some (.object "Address"),
        some (.object [("city", .string "Bern")]), true, true, false, false, false, false, false⟩,
      ⟨"stops", none, .list, some (.object "Stop"), none, true, true, false, false, false, true,
        false⟩,
      ⟨"labels", none, .set, some .string, some (.array [.string "new"]), true, true, false, false,
        true, false, false⟩,
      ⟨"lost", none, .scalar, some .long, none, true, true, false, false, false, false, true⟩]⟩,
    ⟨"Stop", [
      ⟨"id", none, .scalar, some .integer, none, true, true, false, false, false, false, false⟩,
      ⟨"place", none, .scalar, some (.object "Address"), none, true, true, false, false, false,
        false, false⟩]⟩,
    ⟨"Address", [
      ⟨"city", none, .scalar, some .string, none, true, true, false, false, false, false, false⟩,
      ⟨"land", none, .scalar, some (.object held), none, true, true, false, false, false, false,
        false⟩]⟩,
    ⟨"Country", []⟩]
  indexes := [⟨"lost", "lost", some "id", ["labels"]⟩]

/-- Types may be shared, but an address must not lead back to the parcel that holds it. -/
theorem TableDescription.exists_resolve_iff_parcel :
    (parcelDescription "Country").Valid ∧ ¬(parcelDescription "Parcel").Valid := by
  have haccepted : (parcelDescription "Country").resolve.toOption.isSome = true := by decide +kernel
  have hrefused : (parcelDescription "Parcel").resolve.toOption.isSome = false := by decide +kernel
  obtain ⟨table, hresolve⟩ := Option.isSome_iff_exists.mp haccepted
  refine ⟨exists_resolve_iff.mp ⟨table, toOption_eq_some_iff.mp hresolve⟩, fun hvalid => ?_⟩
  obtain ⟨cyclic, hcyclic⟩ := exists_resolve_iff.mpr hvalid
  rw [hcyclic] at hrefused
  cases hrefused

end RecordStore
