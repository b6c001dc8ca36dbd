import RecordStore.Proofs.Codec.ById

/-!
# Records that are stored and read again

Every typed record of an accepted table can be stored, and what is stored reads as the normal form of
the record.
-/

namespace RecordStore

variable {table : TableSchema} {type : ValueType} {value : Value} {storage : Storage}

/-! ### Storage that fits a type -/

/-- Whether values of a type can be stored in a way. -/
structure Storage.Fits (table : TableSchema) (storage : Storage) (type : ValueType) : Prop where
  set : type.kind = .set → ∀ element, type.element = some element → element.isSetElement = true
  byId : storage.byId.isSome = true → type.kind = .list ∧
    ∃ typeName object field, type.element = some (.object typeName) ∧
      table.type? typeName = some object ∧ object.field? "id" = some field ∧ field.isId = true

theorem Storage.fits_plain_scalar (element : ElementType) :
    Storage.plain.Fits table (.scalar element) where
  set hkind := by cases hkind
  byId hbyId := by cases hbyId

theorem Storage.Fits.eq_plain (hfits : storage.Fits table type)
    (hcompressed : storage.compressed = false) (hkind : type.kind ≠ .list) : storage = .plain := by
  obtain ⟨compressed, byId⟩ := storage
  cases hcompressed
  cases byId with
  | none => rfl
  | some name => exact absurd (hfits.byId rfl).1 hkind

/-- Every field of an accepted table is stored in a way that fits its type. -/
theorem TableSchema.Accepted.fits {declared : TypeSchema} {field : FieldSchema}
    (haccepted : table.Accepted) (hdeclared : declared ∈ table.types)
    (hfield : field ∈ declared.fields) : field.storage.Fits table field.type := by
  have hstorable := (haccepted.fields declared hdeclared).storable field hfield
  refine ⟨hstorable.set, fun hbyId => ?_⟩
  have hrekey := FieldSchema.rekeyById_of_byId hbyId
  obtain ⟨hlist, typeName, helement⟩ := hstorable.rekeyed hrekey
  obtain ⟨object, hobject, hid⟩ := haccepted.references declared hdeclared field hfield _ helement
  obtain ⟨idField, hidField, hisId⟩ := (Option.any_eq_true _ _).mp (hid hrekey)
  exact ⟨hlist, typeName, object, idField, helement, hobject, hidField, hisId⟩

/-! ### Ids of typed objects -/

theorem Typed.exists_fields {typeName : String}
    (htyped : Typed table (.scalar (.object typeName)) value) :
    ∃ fields, value = .object typeName fields 0 := by
  cases htyped with
  | object => exact ⟨_, rfl⟩

/-- An object that carries its id holds it in a field that is stored. -/
theorem Typed.exists_id {typeName : String} {object : TypeSchema} {idField : FieldSchema}
    (htyped : Typed table (.scalar (.object typeName)) value)
    (hdeclared : table.type? typeName = some object) (hid : object.field? "id" = some idField)
    (hcarries : value.carriesId table = true) :
    ∃ id, Codec.idOf value = some id ∧ Typed table idField.type id ∧ idField.persist = true := by
  cases htyped with
  | object hother hnames hknown hfields hdistinct =>
    rw [hdeclared] at hother
    cases hother
    rw [Value.carriesId, hdeclared, Option.bind_some, hid, Bool.and_eq_true] at hcarries
    obtain ⟨id, hheld⟩ := Option.isSome_iff_exists.mp hcarries.2
    exact ⟨id, hheld, hfields "id" id idField (Entries.mem_of_find? hheld) hid, hcarries.1⟩

theorem FieldSchema.exists_key {field : FieldSchema} (hisId : field.isId = true) :
    ∃ element, field.type = .scalar element ∧ element.isKey = true := by
  obtain ⟨hkind, hkey⟩ := Bool.and_eq_true_iff.mp hisId
  obtain ⟨element, helement, hkey⟩ := (Option.any_eq_true _ _).mp hkey
  refine ⟨element, ?_, hkey⟩
  rw [ValueType.scalar, ← of_decide_eq_true hkind, ← helement]

namespace Codec

theorem carryIds_of_typed {idField : FieldSchema} {items : List Value}
    (hisId : idField.isId = true)
    (hids : ∀ item ∈ items, ∃ id, idOf item = some id ∧ Typed table idField.type id) :
    CarryIds items := by
  obtain ⟨element, htype, hkey⟩ := FieldSchema.exists_key hisId
  rw [htype] at hids
  cases element with
  | string =>
    refine .strings fun item hmem => ?_
    obtain ⟨id, hid, htyped⟩ := hids item hmem
    cases htyped with
    | string text => exact ⟨text, hid⟩
  | binary =>
    refine .bytes fun item hmem => ?_
    obtain ⟨id, hid, htyped⟩ := hids item hmem
    cases htyped with
    | binary bytes => exact ⟨bytes, hid⟩
  | integer | long | float | double =>
    refine .integers fun item hmem => ?_
    obtain ⟨id, hid, htyped⟩ := hids item hmem
    obtain ⟨number, rfl, _⟩ := htyped.exists_integer rfl
    exact ⟨number, hid⟩
  | boolean | object => cases hkey

theorem normal_of_scalar {element : ElementType} (hkey : element.isKey = true)
    (htyped : Typed table (.scalar element) value) : value.normal table = value := by
  cases htyped with
  | object => cases hkey
  | _ => rfl

/-- Storing an object keeps its id. -/
theorem idOf_normal {typeName : String} {object : TypeSchema} {idField : FieldSchema}
    (haccepted : table.Accepted) (htyped : Typed table (.scalar (.object typeName)) value)
    (hdeclared : table.type? typeName = some object) (hid : object.field? "id" = some idField)
    (hisId : idField.isId = true) (hcarries : value.carriesId table = true) :
    idOf (value.normal table) = idOf value := by
  obtain ⟨fields, rfl⟩ := htyped.exists_fields
  obtain ⟨id, hheld, hidTyped, hpersist⟩ := htyped.exists_id hdeclared hid hcarries
  obtain ⟨element, htype, hkey⟩ := FieldSchema.exists_key hisId
  have hdistinct := haccepted.fields _ (List.mem_of_find?_eq_some hdeclared)
  obtain ⟨hmem, hname⟩ := (TypeSchema.field?_eq_some_iff hdistinct.names).mp hid
  have hfill : FieldSchema.fill (Value.normalFields table fields) idField = id := by
    have hfind : Entries.find? fields idField.name = some id := by
      rw [hname]
      exact hheld
    rw [FieldSchema.fill, Value.find?_normalFields, hfind, Option.map_some]
    dsimp only
    rw [if_pos hpersist, hdistinct.storage_of_scalar hmem htype]
    rw [htype] at hidTyped
    exact normal_of_scalar hkey hidTyped
  have hget := @Record.get?_fill object.fields (FieldSchema.fill (Value.normalFields table fields))
    (.empty typeName) idField hdistinct.names hmem
  rw [hfill, hname, hidTyped.isNull, if_neg Bool.false_ne_true] at hget
  rw [Value.normal, hdeclared, hheld]
  exact hget

end Codec

/-! ### Typed values -/

theorem Codec.encode_number {element : ElementType} (number : Number)
    (helement : element = .integer ∨ element = .long) :
    encode table .plain (.scalar element) (.number number) =
      .ok (.number (number.narrow element).text) := by
  rcases helement with rfl | rfl <;> rfl

theorem Codec.restores_integer {element : ElementType} {number : Int64}
    (helement : element = .integer ∨ element = .long)
    (hnarrow : (Number.integer number).narrow element = .integer number) :
    Restores table .plain (.scalar element) (.number (.integer number)) := by
  refine ⟨_, encode_number _ helement, ?_⟩
  have hnumeric : element.isNumeric = true := by rcases helement with rfl | rfl <;> rfl
  rw [decode_number _ hnumeric, hnarrow, numberOfText_text, ok_bind, hnarrow]
  rfl

theorem Codec.encode_compressed_eq (byId : Option String) (type : ValueType) (value : Value) :
    encode table ⟨true, byId⟩ type value = (toJson table .stored value).map compressJson := by
  cases value <;> rfl

theorem Typed.restores_compressed (haccepted : table.Accepted) (htyped : Typed table type value)
    (hcompressed : storage.compressed = true)
    (hsurvives : ∀ json, Compresses table storage value json → json.Survives) :
    Codec.Restores table storage type value := by
  obtain ⟨json, hwrite, hread⟩ := htyped.exists_json haccepted
  have hdecompress := Codec.decompressJson_compress (hsurvives json (.whole hcompressed hwrite))
  obtain ⟨compressed, byId⟩ := storage
  cases hcompressed
  refine ⟨Codec.compressJson json, ?_, ?_⟩
  · rw [Codec.encode_compressed_eq, hwrite]
    rfl
  · change (do Codec.ofJson table type (← Codec.decompressJson _)) = _
    rw [hdecompress, ok_bind, hread]
    rfl

theorem Typed.restores_uncompressed (haccepted : table.Accepted) (htyped : Typed table type value)
    (hcompressed : storage.compressed = false) (hfits : storage.Fits table type)
    (hdistinct : ∀ items, value = .list items → storage.byId.isSome = true →
      DistinctIds table items)
    (hsurvives : ∀ json, Compresses table storage value json → json.Survives) :
    Codec.Restores table storage type value := by
  induction htyped generalizing storage with
  | string text =>
    rw [hfits.eq_plain hcompressed (by rintro ⟨⟩)]
    exact ⟨.string text, rfl, rfl⟩
  | boolean value =>
    rw [hfits.eq_plain hcompressed (by rintro ⟨⟩)]
    exact ⟨.boolean value, rfl, rfl⟩
  | binary bytes =>
    rw [hfits.eq_plain hcompressed (by rintro ⟨⟩)]
    exact ⟨.binary bytes, rfl, rfl⟩
  | integer value hleast hmost =>
    rw [hfits.eq_plain hcompressed (by rintro ⟨⟩)]
    refine Codec.restores_integer (.inl rfl) ?_
    rw [Number.narrow, Number.toInt64, Int64.narrow_integer hleast hmost]
  | long value =>
    rw [hfits.eq_plain hcompressed (by rintro ⟨⟩)]
    exact Codec.restores_integer (.inr rfl) rfl
  | object hdeclared hnames hknown htyped hids ih =>
    rw [hfits.eq_plain hcompressed (by rintro ⟨⟩)] at hsurvives ⊢
    refine Codec.restores_object haccepted hdeclared
      (fun name value hmem => ?_) hknown fun name value field hmem hfield hpersist => ?_
    · obtain ⟨field, hfield⟩ := Option.isSome_iff_exists.mp
        (hknown name (List.mem_map.mpr ⟨_, hmem, rfl⟩))
      exact (htyped name value field hmem hfield).isNull
    · have hsurvivesField := fun json hwithin =>
        hsurvives json (.field hdeclared hfield hpersist hmem hwithin)
      cases hfieldCompressed : field.storage.compressed with
      | true =>
        exact (htyped name value field hmem hfield).restores_compressed haccepted hfieldCompressed
          hsurvivesField
      | false =>
        refine ih name value field hmem hfield hfieldCompressed
          (haccepted.fits (List.mem_of_find?_eq_some hdeclared) (List.mem_of_find?_eq_some hfield))
          ?_ hsurvivesField
        rintro items rfl hbyId
        exact hids name items field hmem hfield hfieldCompressed
          (FieldSchema.rekeyById_of_byId hbyId)
  | list htyped ih =>
    rename_i element items
    have hitems : ∀ item ∈ items, Codec.Restores table .plain (.scalar element) item :=
      fun item hmem => ih item hmem rfl (Storage.fits_plain_scalar element) (by rintro _ _ ⟨⟩)
        fun json hwithin => hsurvives json (.item hcompressed hmem hwithin)
    obtain ⟨compressed, byId⟩ := storage
    cases hcompressed
    cases byId with
    | none =>
      obtain ⟨stored, hencode, hdecode⟩ := Codec.exists_encodeItems hitems
      refine ⟨.list stored, ?_, ?_⟩
      · change (do return Attribute.list (← Codec.encodeItems table element items)) = _
        rw [hencode]
        rfl
      · change (do return Value.list (← Codec.decodeItems table element stored)) = _
        rw [hdecode]
        rfl
    | some name =>
      obtain ⟨_, typeName, object, idField, helement, hobject, hidField, hisId⟩ := hfits.byId rfl
      cases helement
      have hids := hdistinct items rfl rfl
      exact Codec.restores_byId hobject (fun item hmem => (htyped item hmem).exists_fields)
        (Codec.carryIds_of_typed hisId fun item hmem =>
          ((htyped item hmem).exists_id hobject hidField (hids.carried item hmem)).imp
            fun _ hid => ⟨hid.1, hid.2.1⟩)
        hids.distinct
        (fun item hmem => Codec.idOf_normal haccepted (htyped item hmem) hobject hidField hisId
          (hids.carried item hmem)) hitems
  | map hnames htyped ih =>
    rename_i element entries
    rw [hfits.eq_plain hcompressed (by rintro ⟨⟩)] at hsurvives ⊢
    obtain ⟨stored, hencode, hread, hmap⟩ := Codec.exists_encodeEntries fun name value hmem =>
      ih name value hmem rfl (Storage.fits_plain_scalar element) (by rintro _ _ ⟨⟩)
        fun json hwithin => hsurvives json (.entry hmem hwithin)
    refine ⟨.map (Item.ofEntries stored), ?_, ?_⟩
    · change (do
        return Attribute.map (Item.ofEntries (← Codec.encodeEntries table element entries))) = _
      rw [hencode]
      rfl
    · change (do return Value.map (← Codec.decodeEntries table element (Entries.sorted stored))) = _
      rw [Codec.decodeEntries_eq fun entry hmem => hread entry (Entries.mem_sorted hmem),
        ← Entries.sorted_map, hmap]
      rfl
  | set helements htyped ih =>
    rename_i element elements
    rw [hfits.eq_plain hcompressed (by rintro ⟨⟩)]
    obtain ⟨stored, hencode, hdecode⟩ :=
      Codec.exists_encodeSet (hfits.set rfl element rfl) helements htyped
    exact ⟨stored, hencode, hdecode⟩

/-- A typed value is restored from each way of storing it that fits its type. -/
theorem Typed.restores (haccepted : table.Accepted) (htyped : Typed table type value)
    (hfits : storage.Fits table type)
    (hdistinct : ∀ items, value = .list items → storage.compressed = false →
      storage.byId.isSome = true → DistinctIds table items)
    (hsurvives : ∀ json, Compresses table storage value json → json.Survives) :
    Codec.Restores table storage type value := by
  cases hcompressed : storage.compressed with
  | true => exact htyped.restores_compressed haccepted hcompressed hsurvives
  | false =>
    exact htyped.restores_uncompressed haccepted hcompressed hfits
      (fun items hitems => hdistinct items hitems hcompressed) hsurvives

/-! ### Typed records -/

/-- What is stored of a typed object holds each of its persisted fields. -/
theorem Typed.exists_storeObject {typeName : String} {declared : TypeSchema}
    {fields : List (String × Value)} {revision : Int64} (haccepted : table.Accepted)
    (htyped : Typed table (.scalar (.object typeName)) (.object typeName fields 0))
    (hdeclared : table.type? typeName = some declared)
    (hsurvives : ∀ json, Compresses table .plain (.object typeName fields revision) json →
      json.Survives) :
    ∃ item, Codec.storeObject declared (Entries.names fields) (Codec.encodeFields table fields) =
        .ok item ∧ Codec.HoldsFields table fields declared.fields item := by
  have hdistinct := haccepted.fields _ (List.mem_of_find?_eq_some hdeclared)
  cases htyped with
  | object hother hnames hknown htyped hids =>
    rw [hdeclared] at hother
    cases hother
    refine Codec.exists_storeObject hdistinct.names hdistinct.wireNames (fun name value hmem => ?_)
      hknown fun name value field hmem hfield hpersist => ?_
    · obtain ⟨field, hfield⟩ := Option.isSome_iff_exists.mp
        (hknown name (List.mem_map.mpr ⟨_, hmem, rfl⟩))
      exact (htyped name value field hmem hfield).isNull
    · refine (htyped name value field hmem hfield).restores haccepted
        (haccepted.fits (List.mem_of_find?_eq_some hdeclared) (List.mem_of_find?_eq_some hfield))
        ?_ fun json hwithin => hsurvives json (.field hdeclared hfield hpersist hmem hwithin)
      rintro items rfl hcompressed hbyId
      exact hids name items field hmem hfield hcompressed (FieldSchema.rekeyById_of_byId hbyId)

/-- Storing a record and reading it again gives its normal form. Gzip and the text of JSON are
taken to lose nothing of the documents that the record is compressed as. -/
theorem Record.ofItem_toItem {description : TableDescription} {record : Record}
    (hresolve : description.resolve = .ok table) (htyped : record.IsTyped table)
    (hsurvives : ∀ json, Compresses table .plain record.toValue json → json.Survives) :
    ∃ item, record.toItem table = .ok item ∧
      Record.ofItem table item = .ok (record.normal table) := by
  have haccepted := TableDescription.accepted_of_resolve hresolve
  obtain ⟨typeName, fields, revision⟩ := record
  obtain ⟨rfl, hfields⟩ := htyped
  obtain ⟨object, hobject, hholds⟩ :=
    hfields.exists_storeObject haccepted haccepted.root_eq hsurvives
  have hversion := (hholds.set (Codec.versionAttribute table.version) fun field hmem hpersist =>
    (haccepted.not_reserved hmem hpersist).1)
  have hname : table.root.name = table.rootType := by
    simpa using List.find?_some haccepted.root_eq
  have hencode : Codec.encodeObject table table.root ⟨table.rootType, fields, revision⟩ =
      .ok object := hobject
  rw [Record.toItem, if_neg (not_not_intro rfl)]
  dsimp only
  rw [hencode, ok_bind]
  cases hlocking : table.optimisticLocking with
  | false =>
    refine ⟨_, rfl, ?_⟩
    have hrevision := @Record.revision_fill table.root.fields
      (FieldSchema.fill (Value.normalFields table fields)) (.empty table.rootType)
    rw [Record.ofItem, Codec.decodeObject, hversion.readMembers_eq, ok_bind, hlocking, hname,
      Record.normal, hlocking, if_neg Bool.false_ne_true, if_neg Bool.false_ne_true]
    exact congrArg (fun revision : Int64 => Except.ok
      { (Record.empty table.rootType).fill (FieldSchema.fill (Value.normalFields table fields))
          table.root.fields with
        revision }) hrevision
  | true =>
    refine ⟨_, rfl, ?_⟩
    have hrevision := hversion.set (Codec.revisionAttribute revision) fun field hmem hpersist =>
      (haccepted.not_reserved hmem hpersist).2
    rw [Record.ofItem, Codec.decodeObject, hrevision.readMembers_eq, ok_bind, hlocking, hname,
      Record.normal, hlocking, if_pos rfl, if_pos rfl,
      TableSchema.storedRevision_of_get? (Item.get?_set_self _ _ _)]
    rfl

/-! ### Orders -/

/-- The description of a table of orders: their lines are stored by id, and what was returned is
compressed. -/
def orderDescription : TableDescription where
  name := "orders"
  namespaceName := ""
  rootType := "Order"
  hashKey := "number"
  rangeKey := none
  version := 1
  optimisticLocking := true
  migrations := false
  versionAttribute := none
  revisionAttribute := none
  types := [
    ⟨"Order", [
      ⟨"number", none, .scalar, some .string, none, true, true, false, false, false, false, false⟩,
      ⟨"lines", none, .list, some (.object "Line"), none, true, true, false, false, false, true,
        false⟩,
      ⟨"returned", none, .list, some (.object "Line"), none, true, true, false, false, true, false,
        false⟩,
      ⟨"state", none, .scalar, some .string, some (.string "open"), true, true, false, false, false,
        false, false⟩]⟩,
    ⟨"Line", [
      ⟨"id", none, .scalar, some .integer, none, true, true, false, false, false, false, false⟩,
      ⟨"label", none, .scalar, some .string, some (.string "-"), false, true, false, false, false,
        false, false⟩]⟩]
  indexes := []

def lineType : TypeSchema :=
  ⟨"Line", [
    ⟨"id", "id", .scalar .integer, none, true, true, false, false, false, false, false⟩,
    ⟨"label", "label", .scalar .string, some (.string "-"), false, true, false, false, false, false,
      false⟩]⟩

def orderType : TypeSchema :=
  ⟨"Order", [
    ⟨"number", "number", .scalar .string, none, true, true, false, false, false, false, false⟩,
    ⟨"lines", "lines", ⟨.list, some (.object "Line")⟩, none, true, true, false, false, false, true,
      false⟩,
    ⟨"returned", "returned", ⟨.list, some (.object "Line")⟩, none, true, true, false, false, true,
      false, false⟩,
    ⟨"state", "state", .scalar .string, some (.string "open"), true, true, false, false, false,
      false, false⟩]⟩

def orderTable : TableSchema where
  name := "orders"
  namespaceName := ""
  rootType := "Order"
  version := 1
  optimisticLocking := true
  migrationsEnabled := false
  versionAttribute := "_v"
  revisionAttribute := "_rev"
  keys := ⟨⟨"number", "number", .string⟩, none⟩
  indexes := []
  expiryAttribute := none
  types := [orderType, lineType]

def orderLine (id : Int64) (label : String) : Value :=
  .object "Line" [("label", .string label), ("id", .number (.integer id))] 0

/-- An order of two lines, one of which came back. -/
def order : Record :=
  ⟨"Order", [("number", .string "1"), ("lines", .list [orderLine 10 "mill", orderLine 9 "wheel"]),
    ("returned", .list [orderLine 9 "wheel"])], 3⟩

theorem typed_orderLine {id : Int64} {label : String} (hleast : -2 ^ 31 ≤ id.toInt)
    (hmost : id.toInt < 2 ^ 31) :
    Typed orderTable (.scalar (.object "Line")) (orderLine id label) := by
  have hnames : Entries.names [("label", Value.string label), ("id", .number (.integer id))] =
      ["label", "id"] := rfl
  refine @Typed.object orderTable "Line" lineType _ rfl (hnames ▸ by decide) (hnames ▸ by decide) ?_ ?_
  · intro name value field hmem hfield
    rcases List.mem_cons.mp hmem with hsame | hmem
    · cases hsame
      cases hfield
      exact .string label
    · cases List.mem_singleton.mp hmem
      cases hfield
      exact .integer id hleast hmost
  · intro name items field hmem
    rcases List.mem_cons.mp hmem with hsame | hmem
    · cases hsame
    · cases List.mem_singleton.mp hmem

theorem typed_order : order.IsTyped orderTable := by
  have hlines : ∀ item ∈ [orderLine 10 "mill", orderLine 9 "wheel"],
      Typed orderTable (.scalar (.object "Line")) item := by
    intro item hmem
    rcases List.mem_cons.mp hmem with rfl | hmem
    · exact typed_orderLine (by decide) (by decide)
    · rw [List.mem_singleton.mp hmem]
      exact typed_orderLine (by decide) (by decide)
  refine ⟨rfl, @Typed.object orderTable "Order" orderType _ rfl (by decide) (by decide) ?_ ?_⟩
  · intro name value field hmem hfield
    rcases List.mem_cons.mp hmem with hsame | hmem
    · cases hsame
      cases hfield
      exact .string "1"
    · rcases List.mem_cons.mp hmem with hsame | hmem
      · cases hsame
        cases hfield
        exact .list hlines
      · cases List.mem_singleton.mp hmem
        cases hfield
        exact .list fun item hitem => hlines item (List.mem_cons_of_mem _ hitem)
  · intro name items field hmem hfield hcompress
    rcases List.mem_cons.mp hmem with hsame | hmem
    · cases hsame
    · rcases List.mem_cons.mp hmem with hsame | hmem
      · cases hsame
        refine fun _ => ⟨by decide, ?_⟩
        have hids : [orderLine 10 "mill", orderLine 9 "wheel"].map Codec.idOf =
            [some (.number (.integer 10)), some (.number (.integer 9))] := rfl
        rw [hids]
        simp
      · cases List.mem_singleton.mp hmem
        cases hfield
        cases hcompress

theorem not_compresses_orderLine {id : Int64} {label : String} {json : Json} :
    ¬ Compresses orderTable .plain (orderLine id label) json := by
  intro hcompresses
  cases hcompresses with
  | whole hcompressed => cases hcompressed
  | field hdeclared hknown hpersist hmem hwithin =>
    cases hdeclared
    rcases List.mem_cons.mp hmem with hsame | hmem
    · cases hsame
      cases hknown
      cases hpersist
    · cases List.mem_singleton.mp hmem
      cases hknown
      cases hwithin with
      | whole hcompressed => cases hcompressed

/-- Only what was returned is compressed, without the labels. -/
theorem compresses_order {json : Json} (hcompresses : Compresses orderTable .plain order.toValue json) :
    json = .array [.object [("id", .integer 9)]] := by
  cases hcompresses with
  | whole hcompressed => cases hcompressed
  | field hdeclared hknown hpersist hmem hwithin =>
    cases hdeclared
    rcases List.mem_cons.mp hmem with hsame | hmem
    · cases hsame
      cases hknown
      cases hwithin with
      | whole hcompressed => cases hcompressed
    · rcases List.mem_cons.mp hmem with hsame | hmem
      · cases hsame
        cases hknown
        cases hwithin with
        | whole hcompressed => cases hcompressed
        | item hcompressed hitem hwithin =>
          rcases List.mem_cons.mp hitem with rfl | hitem
          · exact absurd hwithin not_compresses_orderLine
          · rw [List.mem_singleton.mp hitem] at hwithin
            exact absurd hwithin not_compresses_orderLine
      · cases List.mem_singleton.mp hmem
        cases hknown
        cases hwithin with
        | whole hcompressed hwritten =>
          cases hwritten
          rfl
        | item hcompressed => cases hcompressed

/-- The order as it is read: the lines by their ids, with the label that they lack. -/
def settledOrder : Record :=
  ⟨"Order", [("number", .string "1"), ("lines", .list [orderLine 9 "-", orderLine 10 "-"]),
    ("returned", .list [.object "Line" [("id", .number (.integer 9))] 0]),
    ("state", .string "open")], 3⟩

theorem Record.ofItem_toItem_order : ∃ item record, order.toItem orderTable = .ok item ∧
    Record.ofItem orderTable item = .ok record ∧ (record == settledOrder) = true := by
  obtain ⟨item, hstore, hread⟩ := @Record.ofItem_toItem orderTable orderDescription order rfl
    typed_order fun json hcompresses => by
      rw [compresses_order hcompresses]
      exact ⟨by decide +kernel, by cbv⟩
  exact ⟨item, order.normal orderTable, hstore, hread, by cbv⟩

end RecordStore
