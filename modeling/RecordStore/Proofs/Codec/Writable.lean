import RecordStore.Proofs.Codec.RoundTrip
import RecordStore.Proofs.Codec.Sound

/-!
# Values that can be stored

What is read can be stored again in the same type, but for two things that reading lets pass: elements
of a set that are not of the declared type, and objects without a usable id in a list that is stored
by id.
-/

namespace RecordStore

variable {table : TableSchema} {element : ElementType} {value : Value}

/-! ### Elements of sets -/

/-- The values that a native set of a declared type can hold. -/
inductive SetElement : ElementType → Value → Prop where
  | string (text : String) : SetElement .string (.string text)
  | binary (bytes : List UInt8) : SetElement .binary (.binary bytes)
  | number {element : ElementType} (numeric : element.isNumeric = true) (number : Number) :
    SetElement element (.number number)

namespace Codec

theorem exists_mapM_iff {α β : Type} {change : α → Except Error β} {items : List α} :
    (∃ results, items.mapM change = .ok results) ↔ ∀ item ∈ items, ∃ result, change item = .ok result := by
  refine ⟨fun ⟨results, hall⟩ item hmem => ?_, exists_mapM⟩
  obtain ⟨result, _, hresult⟩ := exists_mem_of_forall₂ (mapM_ok hall).flip item hmem
  exact ⟨result, hresult⟩

theorem exists_bind_iff {α β : Type} {outcome : Except Error α} {change : α → β} :
    (∃ result, (do return change (← outcome)) = Except.ok result) ↔ ∃ result, outcome = .ok result := by
  cases outcome with
  | ok value => exact ⟨fun _ => ⟨value, rfl⟩, fun _ => ⟨change value, rfl⟩⟩
  | error error => exact ⟨fun ⟨_, hok⟩ => (nomatch hok), fun ⟨_, hok⟩ => (nomatch hok)⟩

theorem exists_stringElement_iff :
    (∃ text, stringElement value = .ok text) ↔ SetElement .string value := by
  cases value with
  | string text => exact ⟨fun _ => .string text, fun _ => ⟨text, rfl⟩⟩
  | _ =>
    refine ⟨fun hread => ?_, fun helement => ?_⟩
    · obtain ⟨_, htext⟩ := hread
      cases htext
    · cases helement <;> contradiction

theorem exists_binaryElement_iff :
    (∃ bytes, binaryElement value = .ok bytes) ↔ SetElement .binary value := by
  cases value with
  | binary bytes => exact ⟨fun _ => .binary bytes, fun _ => ⟨bytes, rfl⟩⟩
  | _ =>
    refine ⟨fun hread => ?_, fun helement => ?_⟩
    · obtain ⟨_, hbytes⟩ := hread
      cases hbytes
    · cases helement <;> contradiction

theorem exists_numberElement_iff (hnumeric : element.isNumeric = true) :
    (∃ number, numberElement element value = .ok number) ↔ SetElement element value := by
  cases value with
  | number number => exact ⟨fun _ => .number hnumeric number, fun _ => ⟨_, rfl⟩⟩
  | _ =>
    refine ⟨fun hread => ?_, fun helement => ?_⟩
    · obtain ⟨_, hnumber⟩ := hread
      cases hnumber
    · cases helement <;> cases hnumeric

/-- A set can be stored exactly when all its elements are of the declared type. -/
theorem exists_encodeSet_iff {elements : List Value} (hset : element.isSetElement = true) :
    (∃ stored, encodeSet element elements = .ok stored) ↔
      ∀ value ∈ elements, SetElement element value := by
  by_cases hempty : elements = []
  · subst hempty
    exact ⟨fun _ _ hmem => (nomatch hmem), fun _ => ⟨.list [], rfl⟩⟩
  have hisEmpty : ¬ elements.isEmpty = true := by simpa using hempty
  have hnumbers : element.isNumeric = true → ((∃ stored, encodeSet element elements = .ok stored) ↔
      ∀ value ∈ elements, SetElement element value) := by
    intro hnumeric
    rw [encodeSet, if_neg hisEmpty]
    · rw [if_pos hnumeric, exists_bind_iff, exists_mapM_iff]
      exact forall₂_congr fun _ _ => exists_numberElement_iff hnumeric
    · rintro rfl
      cases hnumeric
    · rintro rfl
      cases hnumeric
  cases element with
  | string =>
    rw [encodeSet, if_neg hisEmpty, exists_bind_iff, exists_mapM_iff]
    exact forall₂_congr fun _ _ => exists_stringElement_iff
  | binary =>
    rw [encodeSet, if_neg hisEmpty, exists_bind_iff, exists_mapM_iff]
    exact forall₂_congr fun _ _ => exists_binaryElement_iff
  | integer | long | float | double => exact hnumbers rfl
  | boolean | object => cases hset

end Codec

/-! ### Values without refusals -/

/-- An object with an id by which it can be stored. -/
def Value.Keyed (value : Value) : Prop :=
  ∃ typeName fields revision text, value = .object typeName fields revision ∧
    Codec.idText typeName fields = .ok text

/-- What storing asks for. -/
def Demand.stored : Demand where
  element := SetElement
  keyed := Value.Keyed

namespace Codec

theorem exists_toJson_setElement {selection : Selection} (helement : SetElement element value) :
    ∃ json, toJson table selection value = .ok json := by
  cases helement with
  | string text => exact ⟨_, rfl⟩
  | binary bytes => exact ⟨_, rfl⟩
  | number _ number => cases number <;> exact ⟨_, rfl⟩

/-- Every value of a type can be written as JSON. -/
theorem exists_toJson {type : ValueType} (haccepted : table.Accepted)
    (hfulfils : Fulfils table .stored type value) : ∃ json, toJson table .stored value = .ok json := by
  induction hfulfils with
  | null | string | boolean | binary => exact ⟨_, rfl⟩
  | number _ number =>
    rename_i element _
    cases number.narrow element <;> exact ⟨_, rfl⟩
  | object hdeclared _ hknown _ _ ih =>
    rename_i _ _ fields _ _ _
    have hnames := haccepted.names_of_type? hdeclared
    obtain ⟨members, hselect, _⟩ := @selectMembers_ok .stored (memberJsons table .stored fields) _
      hnames fun field hmem _ outcome houtcome => by
        rw [find?_memberJsons] at houtcome
        obtain ⟨held, hheld, rfl⟩ := Option.map_eq_some_iff.mp houtcome
        exact ih field.name held field (Entries.mem_of_find? hheld)
          ((TypeSchema.field?_eq_some_iff hnames).mpr ⟨hmem, rfl⟩)
    refine ⟨.object (Entries.sorted members), ?_⟩
    rw [toJson, TableSchema.requireType_eq_ok_iff.mpr hdeclared, ok_bind, hselect]
    rfl
  | list _ ih =>
    obtain ⟨jsons, hjsons⟩ := exists_mapM ih
    rw [← itemJsons_eq] at hjsons
    refine ⟨.array jsons, ?_⟩
    rw [toJson, hjsons]
    rfl
  | map _ ih =>
    obtain ⟨jsons, hjsons⟩ := Entries.exists_mapM ih
    rw [← entryJsons_eq] at hjsons
    refine ⟨.object (Entries.sorted jsons), ?_⟩
    rw [toJson, hjsons]
    rfl
  | set hadmitted =>
    obtain ⟨jsons, hjsons⟩ := exists_mapM fun element helement =>
      @exists_toJson_setElement table _ element .stored (hadmitted element helement)
    rw [← itemJsons_eq] at hjsons
    refine ⟨.array jsons, ?_⟩
    rw [toJson, hjsons]
    rfl

/-! ### Storing -/

theorem exists_encodeById_of_keyed {type : ValueType} {typeName : String} {object : TypeSchema}
    {items : List Value} (hdeclared : table.type? typeName = some object)
    (hitems : ∀ item ∈ items, item.Keyed ∧
      ∃ stored, encode table .plain (.scalar (.object typeName)) item = .ok stored) :
    ∃ entries, encodeById table type object items = .ok entries := by
  induction items with
  | nil => exact ⟨[], rfl⟩
  | cons item rest ih =>
    obtain ⟨⟨actual, fields, revision, text, rfl, htext⟩, stored, hencode⟩ :=
      hitems item List.mem_cons_self
    obtain rfl := typeName_of_encode hencode
    rw [encode_object_eq, TableSchema.requireType_eq_ok_iff.mpr hdeclared, ok_bind] at hencode
    obtain ⟨members, hmembers, _⟩ := map_eq_ok_iff.mp hencode
    obtain ⟨entries, hentries⟩ := ih fun other hmem => hitems other (.tail _ hmem)
    refine ⟨(text, .map members) :: entries, ?_⟩
    rw [encodeById, htext, ok_bind, hmembers, ok_bind, hentries]
    rfl

/-- An object can be stored when each of its persisted fields can. -/
theorem exists_encode_object {typeName : String} {declared : TypeSchema}
    {fields : List (String × Value)} {revision : Int64} (haccepted : table.Accepted)
    (hdeclared : table.type? typeName = some declared)
    (hknown : ∀ name ∈ Entries.names fields, (declared.field? name).isSome = true)
    (hstores : ∀ name value field, (name, value) ∈ fields → declared.field? name = some field →
      ∃ stored, encode table field.storage field.type value = .ok stored) :
    ∃ stored, encode table .plain (.scalar (.object typeName)) (.object typeName fields revision) =
      .ok stored := by
  have hnames := haccepted.names_of_type? hdeclared
  obtain ⟨members, hmembers⟩ := @exists_storeMembers declared.fields (encodeFields table fields) (by
    intro field hmem _ store hstore
    obtain ⟨value, hvalue, _, rfl⟩ := exists_of_find?_encodeFields hstore
    exact hstores field.name value field hvalue ((TypeSchema.field?_eq_some_iff hnames).mpr ⟨hmem, rfl⟩))
  refine ⟨.map members, ?_⟩
  rw [encode_object_eq, TableSchema.requireType_eq_ok_iff.mpr hdeclared, ok_bind, storeObject,
    forM_requireField hknown, ok_bind, hmembers]
  rfl

theorem exists_encode_byId {name : String} {kind : Kind} {typeName : String} {object : TypeSchema}
    {items : List Value} (hdeclared : table.type? typeName = some object)
    (hitems : ∀ item ∈ items, item.Keyed ∧
      ∃ stored, encode table .plain (.scalar (.object typeName)) item = .ok stored) :
    ∃ stored, encode table ⟨false, some name⟩ ⟨kind, some (.object typeName)⟩ (.list items) =
      .ok stored := by
  obtain ⟨entries, hentries⟩ :=
    @exists_encodeById_of_keyed table ⟨kind, some (.object typeName)⟩ typeName object items
      hdeclared hitems
  refine ⟨.map (Item.ofEntries entries), ?_⟩
  change (do
    let object ← table.requireType typeName
    return Attribute.map (Item.ofEntries (← encodeById table _ object items))) = _
  rw [TableSchema.requireType_eq_ok_iff.mpr hdeclared, ok_bind, hentries]
  rfl

theorem exists_encode_compressed {type : ValueType} (haccepted : table.Accepted)
    (hfulfils : Fulfils table .stored type value) (byId : Option String) :
    ∃ stored, encode table ⟨true, byId⟩ type value = .ok stored := by
  obtain ⟨json, hjson⟩ := exists_toJson haccepted hfulfils
  refine ⟨compressJson json, ?_⟩
  rw [encode_compressed_eq, hjson]
  rfl

theorem exists_encode_uncompressed {type : ValueType} {byId : Option String}
    (haccepted : table.Accepted) (hfulfils : Fulfils table .stored type value)
    (hfits : Storage.Fits table ⟨false, byId⟩ type)
    (hkeyed : byId.isSome = true → ∀ items, value = .list items → ∀ item ∈ items, item.Keyed) :
    ∃ stored, encode table ⟨false, byId⟩ type value = .ok stored := by
  induction hfulfils generalizing byId with
  | null element =>
    cases hfits.eq_plain rfl nofun
    exact ⟨_, rfl⟩
  | string text =>
    cases hfits.eq_plain rfl nofun
    exact ⟨_, rfl⟩
  | boolean value =>
    cases hfits.eq_plain rfl nofun
    exact ⟨_, rfl⟩
  | binary bytes =>
    cases hfits.eq_plain rfl nofun
    exact ⟨_, rfl⟩
  | number hnumeric number =>
    rename_i element
    cases hfits.eq_plain rfl nofun
    cases element <;> first | exact ⟨_, rfl⟩ | cases hnumeric
  | object hdeclared _ hknown hfulfils hids ih =>
    cases hfits.eq_plain rfl nofun
    refine exists_encode_object haccepted hdeclared hknown fun name value field hmem hfield => ?_
    have hfieldFits := haccepted.fits (List.mem_of_find?_eq_some hdeclared)
      (List.mem_of_find?_eq_some hfield)
    cases hcompress : field.compress with
    | true =>
      have hstorage : field.storage = ⟨true, field.storage.byId⟩ := congrArg (Storage.mk · _) hcompress
      rw [hstorage]
      exact exists_encode_compressed haccepted (hfulfils name value field hmem hfield) _
    | false =>
      have hstorage : field.storage = ⟨false, field.storage.byId⟩ := congrArg (Storage.mk · _) hcompress
      rw [hstorage] at hfieldFits ⊢
      refine ih name value field hmem hfield hfieldFits ?_
      rintro hbyId items rfl
      exact hids name items field hmem hfield hcompress (FieldSchema.rekeyById_of_byId hbyId)
  | list _ ih =>
    rename_i element items _
    have hitems : ∀ item ∈ items,
        ∃ stored, encode table .plain (.scalar element) item = .ok stored := fun item hmem =>
      ih item hmem (Storage.fits_plain_scalar element) fun hbyId => by cases hbyId
    cases byId with
    | none =>
      obtain ⟨stored, hstored⟩ := exists_mapM hitems
      exact ⟨.list stored, (encode_list_eq items).trans (by rw [hstored]; rfl)⟩
    | some name =>
      obtain ⟨_, typeName, object, _, helement, hobject, _⟩ := hfits.byId rfl
      cases helement
      exact exists_encode_byId hobject fun item hmem =>
        ⟨hkeyed rfl items rfl item hmem, hitems item hmem⟩
  | map _ ih =>
    rename_i element entries _
    cases hfits.eq_plain rfl nofun
    obtain ⟨stored, hstored⟩ := @Entries.exists_mapM _ _ (encode table .plain (.scalar element)) entries
      fun name value hmem => ih name value hmem (Storage.fits_plain_scalar element)
        fun hbyId => by cases hbyId
    exact ⟨.map (Item.ofEntries stored), (encode_map_eq entries).trans (by rw [hstored]; rfl)⟩
  | set hadmitted =>
    rename_i element elements
    cases hfits.eq_plain rfl nofun
    exact (exists_encodeSet_iff (hfits.set rfl element rfl)).mpr hadmitted

/-- A value of a type can be stored, where its sets hold elements of their type and the objects in
lists that are stored by id have an id. -/
theorem exists_encode {type : ValueType} {storage : Storage} (haccepted : table.Accepted)
    (hfulfils : Fulfils table .stored type value) (hfits : storage.Fits table type)
    (hkeyed : storage.compressed = false → storage.byId.isSome = true →
      ∀ items, value = .list items → ∀ item ∈ items, item.Keyed) :
    ∃ stored, encode table storage type value = .ok stored := by
  obtain ⟨compressed, byId⟩ := storage
  cases compressed with
  | true => exact exists_encode_compressed haccepted hfulfils byId
  | false => exact exists_encode_uncompressed haccepted hfulfils hfits (hkeyed rfl)

end Codec

/-! ### What is read -/

/-- A table whose fields leave nothing unchecked when they are read. -/
def TableSchema.ChecksElements (table : TableSchema) : Prop :=
  ∀ declared ∈ table.types, ∀ field ∈ declared.fields,
    field.type.kind ≠ .set ∧ (field.compress = false → field.rekeyById = false)

theorem Fulfils.stored_of_read {type : ValueType} (hchecks : table.ChecksElements)
    (hkind : type.kind ≠ .set) (hfulfils : Fulfils table .read type value) :
    Fulfils table .stored type value := by
  induction hfulfils with
  | null element => exact .null element
  | string text => exact .string text
  | boolean value => exact .boolean value
  | binary bytes => exact .binary bytes
  | number hnumeric number => exact .number hnumeric number
  | object hdeclared hpresent hknown _ _ ih =>
    have hfields := hchecks _ (List.mem_of_find?_eq_some hdeclared)
    refine .object hdeclared hpresent hknown (fun name value field hmem hfield => ?_)
      fun name items field hmem hfield hcompress hrekey => ?_
    · exact ih name value field hmem hfield (hfields field (List.mem_of_find?_eq_some hfield)).1
    · have hnot := (hfields field (List.mem_of_find?_eq_some hfield)).2 hcompress
      cases hnot.symm.trans hrekey
  | list _ ih => exact .list fun item hmem => ih item hmem nofun
  | map _ ih => exact .map fun name value hmem => ih name value hmem nofun
  | set => exact absurd rfl hkind

namespace Codec

/-- Where no set and no list that is stored by id is declared, all that is read can be stored again
in the same type. -/
theorem exists_encode_of_decode {type : ValueType} {description : TableDescription}
    {stored : Attribute} (hresolve : description.resolve = .ok table)
    (hchecks : table.ChecksElements) (hallowed : type.Allowed table) (hkind : type.kind ≠ .set)
    (hread : decode table .plain type stored = .ok value) :
    ∃ again, encode table .plain type value = .ok again := by
  have hreads := reads_of_resolve hresolve hallowed stored
  rw [hread] at hreads
  have hfulfils : Fulfils table .read type value := hreads
  refine exists_encode (TableDescription.accepted_of_resolve hresolve)
    (hfulfils.stored_of_read hchecks hkind) ⟨hallowed.set, fun hbyId => by cases hbyId⟩ ?_
  intro _ hbyId
  cases hbyId

/-- A native set of numbers is read whatever is declared, and then it cannot be stored again where
its elements are declared to be strings or bytes. -/
theorem encode_numberSet_refused {texts : List String} (hset : element.isSetElement = true)
    (hnumeric : element.isNumeric = false) (htexts : texts ≠ [])
    (hread : decode table .plain ⟨.set, some element⟩ (.numberSet texts) = .ok value) :
    ¬ ∃ stored, encode table .plain ⟨.set, some element⟩ value = .ok stored := by
  rw [decode_numberSet_eq] at hread
  obtain ⟨numbers, hnumbers, rfl⟩ := map_eq_ok_iff.mp hread
  intro hstored
  have hmembers := (exists_encodeSet_iff hset).mp hstored
  obtain ⟨number, hmem⟩ : ∃ number, number ∈ numbers := by
    refine List.exists_mem_of_ne_nil numbers ?_
    rintro rfl
    exact htexts (List.forall₂_nil_right_iff.mp (mapM_ok hnumbers))
  cases hmembers _ (List.mem_map_of_mem hmem) with
  | number hother => cases hnumeric.symm.trans hother

/-- A number that is stored in a set of strings. -/
example : (decode orderTable .plain ⟨.set, some .string⟩ (.numberSet ["1"])).isOk = true := by
  decide +kernel

end Codec

end RecordStore
