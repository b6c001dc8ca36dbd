import RecordStore.Proofs.Codec.Json
import RecordStore.Proofs.Codec.Parts

/-!
# Documents of described types

Which JSON is of a type, said of the descriptions of types alone: null is of every type that says
what its elements are, and a member of an object is of the type of a field that its type declares.
Reading succeeds exactly for the documents of a type.
-/

namespace RecordStore

/-! ### Described types -/

/-- Whether the type of a name declares a field under another. -/
def Declares (types : List TypeDescription) (typeName name : String) (field : FieldDescription) :
    Prop :=
  ∃ type ∈ types, type.name = typeName ∧ field ∈ type.fields ∧ field.name = name

/-- Types that are told apart by their names, each with fields that are told apart by theirs. -/
structure Named (types : List TypeDescription) : Prop where
  typeNames : (types.map TypeDescription.name).Nodup
  fieldNames : ∀ type ∈ types, (type.fields.map FieldDescription.name).Nodup

namespace Named

variable {types : List TypeDescription} {typeName name : String}

theorem of_valid {counters : CounterNames} (hnames : (types.map TypeDescription.name).Nodup)
    (hvalid : ∀ type ∈ types, type.Valid counters) : Named types :=
  ⟨hnames, fun type hmem => (hvalid type hmem).names⟩

theorem find?_eq_some_iff (hnamed : Named types) {found : TypeSchema} :
    (types.map TypeDescription.schema).find? (fun type => type.name = typeName) = some found ↔
      ∃ type ∈ types, type.name = typeName ∧ type.schema = found := by
  have hnames : ((types.map TypeDescription.schema).map TypeSchema.name).Nodup := by
    rw [List.map_map]
    exact hnamed.typeNames
  rw [find?_eq_some_iff_of_nodup hnames, List.mem_map]
  constructor
  · rintro ⟨⟨type, hmem, rfl⟩, hname⟩
    exact ⟨type, hmem, hname, rfl⟩
  · rintro ⟨type, hmem, hname, rfl⟩
    exact ⟨⟨type, hmem, rfl⟩, hname⟩

theorem find?_eq_none_iff :
    (types.map TypeDescription.schema).find? (fun type => type.name = typeName) = none ↔
      typeName ∉ types.map TypeDescription.name := by
  rw [List.find?_eq_none, List.forall_mem_map]
  simp only [decide_eq_true_eq, List.mem_map, not_exists, not_and]
  rfl

theorem eq_of_name (hnamed : Named types) {first second : TypeDescription} (hfirst : first ∈ types)
    (hsecond : second ∈ types) (hname : first.name = second.name) : first = second :=
  List.inj_on_of_nodup_map hnamed.typeNames hfirst hsecond hname

theorem declares_iff (hnamed : Named types) {type : TypeDescription} (hmem : type ∈ types)
    {field : FieldDescription} :
    Declares types type.name name field ↔ field ∈ type.fields ∧ field.name = name := by
  constructor
  · rintro ⟨other, hother, hsame, hfield⟩
    rw [← hnamed.eq_of_name hother hmem hsame]
    exact hfield
  · intro hfield
    exact ⟨type, hmem, rfl, hfield⟩

theorem field?_eq_some_iff (hnamed : Named types) {type : TypeDescription} (hmem : type ∈ types)
    {found : FieldSchema} : type.schema.field? name = some found ↔
      ∃ field, Declares types type.name name field ∧ field.schema = found := by
  have hnames : (type.schema.fields.map FieldSchema.name).Nodup := by
    rw [TypeDescription.schema, List.map_map]
    exact hnamed.fieldNames type hmem
  rw [TypeSchema.field?_eq_some_iff hnames, TypeDescription.schema, List.mem_map]
  constructor
  · rintro ⟨⟨field, hfield, rfl⟩, hname⟩
    exact ⟨field, (hnamed.declares_iff hmem).mpr ⟨hfield, hname⟩, rfl⟩
  · rintro ⟨field, hdeclared, rfl⟩
    obtain ⟨hfield, hname⟩ := (hnamed.declares_iff hmem).mp hdeclared
    exact ⟨⟨field, hfield, rfl⟩, hname⟩

end Named

/-! ### Documents -/

/-- The documents that are of a type. -/
inductive Json.OfType (types : List TypeDescription) : ValueType → Json → Prop where
  | null {kind : Kind} {element : ElementType} : OfType types ⟨kind, some element⟩ .null
  | string {text : String} : OfType types (.scalar .string) (.string text)
  | boolean {value : Bool} : OfType types (.scalar .boolean) (.boolean value)
  | integer {element : ElementType} {value : Int} (number : element ∈ ElementType.numbers) :
    OfType types (.scalar element) (.integer value)
  | float {element : ElementType} {value : Float} (number : element ∈ ElementType.numbers) :
    OfType types (.scalar element) (.float value)
  | binary {items : List Json} (bytes : ∀ item ∈ items, ∃ byte : UInt8, item = .integer byte.toNat) :
    OfType types (.scalar .binary) (.array items)
  | list {element : ElementType} {items : List Json}
    (parts : ∀ item ∈ items, OfType types (.scalar element) item) :
    OfType types ⟨.list, some element⟩ (.array items)
  | set {element : ElementType} {items : List Json}
    (parts : ∀ item ∈ items, OfType types (.scalar element) item) :
    OfType types ⟨.set, some element⟩ (.array items)
  | map {element : ElementType} {members : List (String × Json)}
    (parts : ∀ member ∈ members, OfType types (.scalar element) member.2) :
    OfType types ⟨.map, some element⟩ (.object members)
  | object {typeName : String} (declared : typeName ∈ types.map TypeDescription.name) :
    OfType types (.scalar (.object typeName)) (.object [])
  | member {typeName name : String} {field : FieldDescription} {json : Json}
    {others : List (String × Json)} (declared : Declares types typeName name field)
    (value : OfType types field.type json)
    (rest : OfType types (.scalar (.object typeName)) (.object others)) :
    OfType types (.scalar (.object typeName)) (.object ((name, json) :: others))

theorem Json.OfType.declared {types : List TypeDescription} {typeName : String}
    {members : List (String × Json)}
    (hof : (Json.object members).OfType types (.scalar (.object typeName))) :
    typeName ∈ types.map TypeDescription.name := by
  cases hof with
  | object declared => exact declared
  | member declared =>
    obtain ⟨type, hmem, hname, _⟩ := declared
    exact hname ▸ List.mem_map_of_mem hmem

namespace Codec

variable {types : List TypeDescription} {table : TableSchema}

theorem exists_byteOfJson_iff {json : Json} :
    (∃ byte, byteOfJson json = .ok byte) ↔ ∃ byte : UInt8, json = .integer byte.toNat := by
  constructor
  · rintro ⟨byte, hread⟩
    unfold byteOfJson at hread
    split at hread
    · split at hread
      · rename_i value hrange
        refine ⟨UInt8.ofNat value.toNat, ?_⟩
        rw [UInt8.toNat_ofNat', Nat.mod_eq_of_lt (by omega), Int.toNat_of_nonneg hrange.1]
      · cases hread
    · cases hread
  · rintro ⟨byte, rfl⟩
    exact ⟨byte, byteOfJson_toNat byte⟩

/-- The members of an object are read when each is of the field that its name declares. -/
theorem exists_fieldsOfJson_iff (hnamed : Named types) {type : TypeDescription} (htype : type ∈ types)
    {members : List (String × Json)}
    (hmembers : ∀ member ∈ members, ∀ declared,
      (∃ value, ofJson table declared member.2 = .ok value) ↔ member.2.OfType types declared)
    (record : Record) :
    (∃ result, fieldsOfJson table type.schema record members = .ok result) ↔
      (Json.object members).OfType types (.scalar (.object type.name)) := by
  induction members generalizing record with
  | nil =>
    refine ⟨fun _ => .object (List.mem_map_of_mem htype), fun _ => ⟨record, rfl⟩⟩
  | cons member rest ih =>
    obtain ⟨name, json⟩ := member
    have hrest := ih fun member hmem => hmembers member (.tail _ hmem)
    have hjson := hmembers _ List.mem_cons_self
    rw [fieldsOfJson]
    constructor
    · rintro ⟨result, hread⟩
      cases hfield : type.schema.field? name with
      | none =>
        rw [hfield] at hread
        cases hread
      | some found =>
        rw [hfield] at hread
        obtain ⟨field, hdeclared, rfl⟩ := (hnamed.field?_eq_some_iff htype).mp hfield
        obtain ⟨value, hvalue, hothers⟩ := bind_eq_ok_iff.mp hread
        exact .member hdeclared ((hjson _).mp ⟨value, hvalue⟩)
          ((hrest _).mp ⟨result, hothers⟩)
    · intro hof
      cases hof with
      | member declared value rest =>
        rw [(hnamed.field?_eq_some_iff htype).mpr ⟨_, declared, rfl⟩]
        obtain ⟨read, hread⟩ := (hjson _).mpr value
        obtain ⟨result, hresult⟩ := (hrest (record.set name read)).mpr rest
        exact ⟨result, bind_eq_ok_iff.mpr ⟨read, hread, hresult⟩⟩

theorem exists_ofJson_object_iff (hnamed : Named types)
    (htypes : table.types = types.map TypeDescription.schema) {typeName : String}
    {members : List (String × Json)}
    (hmembers : ∀ member ∈ members, ∀ declared,
      (∃ value, ofJson table declared member.2 = .ok value) ↔ member.2.OfType types declared) :
    (∃ value, ofJson table (.scalar (.object typeName)) (.object members) = .ok value) ↔
      (Json.object members).OfType types (.scalar (.object typeName)) := by
  rw [ofJson_object_eq, TableSchema.requireType, TableSchema.type?, htypes]
  cases hfound : (types.map TypeDescription.schema).find? fun type => type.name = typeName with
  | none =>
    exact ⟨fun ⟨_, hread⟩ => (nomatch hread), fun hof =>
      absurd hof.declared (Named.find?_eq_none_iff.mp hfound)⟩
  | some found =>
    obtain ⟨type, hmem, rfl, rfl⟩ := hnamed.find?_eq_some_iff.mp hfound
    rw [ok_bind, exists_map_eq_ok_iff]
    exact exists_fieldsOfJson_iff hnamed hmem hmembers _

/-- Reading succeeds exactly for the documents of a type. -/
theorem exists_ofJson_iff (hnamed : Named types)
    (htypes : table.types = types.map TypeDescription.schema) (type : ValueType) (json : Json) :
    (∃ value, ofJson table type json = .ok value) ↔ json.OfType types type := by
  induction json using Json.inductionOnParts generalizing type with
  | step json ih =>
    obtain ⟨kind, _ | element⟩ := type
    · constructor
      · rintro ⟨value, hread⟩
        cases json <;> cases hread
      · intro hof
        cases hof
    cases json with
    | null => exact ⟨fun _ => .null, fun _ => ⟨.null, by cases kind <;> cases element <;> rfl⟩⟩
    | boolean value =>
      constructor
      · rintro ⟨read, hread⟩
        cases kind <;> cases element <;> first | exact .boolean | cases hread
      · rintro ⟨⟩
        exact ⟨_, rfl⟩
    | string text =>
      constructor
      · rintro ⟨read, hread⟩
        cases kind <;> cases element <;> first | exact .string | cases hread
      · rintro ⟨⟩
        exact ⟨_, rfl⟩
    | integer value =>
      constructor
      · rintro ⟨read, hread⟩
        cases kind <;> cases element <;> first | exact .integer (by decide) | cases hread
      · rintro ⟨⟩
        cases element <;> first | exact ⟨_, rfl⟩ | contradiction
    | float value =>
      constructor
      · rintro ⟨read, hread⟩
        cases kind <;> cases element <;> first | exact .float (by decide) | cases hread
      · rintro ⟨⟩
        cases element <;> first | exact ⟨_, rfl⟩ | contradiction
    | array items =>
      have hitems : (∃ values, items.mapM (ofJson table (.scalar element)) = .ok values) ↔
          ∀ item ∈ items, item.OfType types (.scalar element) :=
        exists_mapM_iff.trans (forall₂_congr fun item hmem => ih item hmem _)
      cases kind with
      | list =>
        rw [ofJson_list_eq, exists_map_eq_ok_iff, hitems]
        exact ⟨.list, fun hof => by cases hof; assumption⟩
      | set =>
        rw [ofJson_set_eq, exists_map_eq_ok_iff, hitems]
        exact ⟨.set, fun hof => by cases hof; assumption⟩
      | map => exact iff_of_false (by rintro ⟨_, hread⟩; cases hread) (by rintro ⟨⟩)
      | scalar =>
        cases element with
        | binary =>
          have hbytes : (∃ bytes, items.mapM byteOfJson = .ok bytes) ↔
              ∀ item ∈ items, ∃ byte : UInt8, item = .integer byte.toNat :=
            exists_mapM_iff.trans (forall₂_congr fun _ _ => exists_byteOfJson_iff)
          rw [← ValueType.scalar, ofJson_binary_eq, exists_map_eq_ok_iff, hbytes]
          exact ⟨.binary, fun hof => by cases hof; assumption⟩
        | _ => exact iff_of_false (by rintro ⟨_, hread⟩; cases hread) (by rintro ⟨⟩)
    | object members =>
      cases kind with
      | list | set => exact iff_of_false (by rintro ⟨_, hread⟩; cases hread) (by rintro ⟨⟩)
      | map =>
        have hmembers : (∃ entries, Entries.mapM (ofJson table (.scalar element)) members =
            .ok entries) ↔ ∀ member ∈ members, member.2.OfType types (.scalar element) :=
          exists_mapM_iff.trans (forall₂_congr fun member hmem =>
            exists_map_eq_ok_iff.trans (ih member.2 (List.mem_map_of_mem hmem) _))
        rw [ofJson_map_eq, exists_map_eq_ok_iff, hmembers]
        exact ⟨.map, fun hof => by cases hof; assumption⟩
      | scalar =>
        cases element with
        | object typeName =>
          exact exists_ofJson_object_iff hnamed htypes fun member hmember =>
            ih member.2 (List.mem_map_of_mem hmember)
        | _ => exact iff_of_false (by rintro ⟨_, hread⟩; cases hread) (by rintro ⟨⟩)

end Codec

end RecordStore
