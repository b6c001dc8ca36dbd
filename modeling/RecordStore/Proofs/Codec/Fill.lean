import RecordStore.Proofs.Codec.Object
import RecordStore.Proofs.Codec.Plain
import RecordStore.Proofs.Record.Fields

/-!
# Objects that are stored and filled in

An object whose fields are each read again from what is stored of them reads as its normal form: what
is stored of it holds the attributes of its persisted fields, and reading fills in the others.
-/

namespace RecordStore

variable {table : TableSchema} {fields : List (String × Value)} {declared : List FieldSchema}

/-! ### Filling in -/

section Filling

variable {member : FieldSchema → Value} {record : Record}

theorem Record.get?_fill_of_ne {name : String} (hname : ∀ field ∈ declared, field.name ≠ name) :
    (record.fill member declared).get? name = record.get? name := by
  induction declared generalizing record with
  | nil => rfl
  | cons field rest ih =>
    rw [Record.fill, ih fun other hmem => hname other (.tail _ hmem), Record.get?_set,
      if_neg (hname field List.mem_cons_self)]

/-- A record that is filled in holds the value of each declared field. -/
theorem Record.get?_fill {field : FieldSchema} (hnames : (declared.map FieldSchema.name).Nodup)
    (hmem : field ∈ declared) :
    (record.fill member declared).get? field.name =
      if (member field).isNull then none else some (member field) := by
  induction declared generalizing record with
  | nil => cases hmem
  | cons first rest ih =>
    obtain ⟨hfresh, hrest⟩ := List.nodup_cons.mp hnames
    rw [Record.fill]
    rcases List.mem_cons.mp hmem with rfl | hmem
    · rw [Record.get?_fill_of_ne, Record.get?_set, if_pos rfl]
      intro other hother hsame
      exact hfresh (List.mem_map.mpr ⟨other, hother, hsame⟩)
    · exact ih hrest hmem

theorem Record.revision_fill : (record.fill member declared).revision = record.revision := by
  induction declared generalizing record with
  | nil => rfl
  | cons field rest ih => exact ih

end Filling

theorem Value.find?_normalFields (fields : List (String × Value)) (name : String) :
    Entries.find? (normalFields table fields) name =
      (Entries.find? fields name).map fun value field =>
        field.storage.select (value.kept table) (value.normal table) := by
  induction fields with
  | nil => rfl
  | cons entry rest ih =>
    obtain ⟨key, value⟩ := entry
    rw [normalFields, Entries.find?_cons, Entries.find?_cons, ih]
    split <;> rfl

namespace Codec

theorem find?_decodeFields (item : Item) (name : String) :
    Entries.find? (decodeFields table item) name =
      (Item.get? item name).map fun stored field => decode table field.storage field.type stored := by
  induction item with
  | nil => rfl
  | cons entry rest ih =>
    obtain ⟨key, value⟩ := entry
    rw [decodeFields, Entries.find?_cons, ih, Item.get?, Item.get?, Entries.find?_cons]
    split <;> rfl

/-! ### Stored objects -/

/-- An item that holds what is stored of each persisted field, in the attribute of that field. -/
structure HoldsFields (table : TableSchema) (fields : List (String × Value))
    (declared : List FieldSchema) (item : Item) : Prop where
  unset : ∀ field ∈ declared, field.persist = true → Entries.find? fields field.name = none →
    Item.get? item field.wireName = none
  held : ∀ field ∈ declared, field.persist = true → ∀ value,
    Entries.find? fields field.name = some value → ∃ stored,
      Item.get? item field.wireName = some stored ∧
        decode table field.storage field.type stored =
          .ok (field.storage.select (value.kept table) (value.normal table))

/-- Attributes in which no field is stored do not matter. -/
theorem HoldsFields.set {item : Item} (hholds : HoldsFields table fields declared item)
    {name : String} (value : Attribute)
    (hname : ∀ field ∈ declared, field.persist = true → name ≠ field.wireName) :
    HoldsFields table fields declared (Item.set item name value) where
  unset field hmem hpersist hnone := by
    rw [Item.get?_set_of_ne _ _ (hname field hmem hpersist)]
    exact hholds.unset field hmem hpersist hnone
  held field hmem hpersist held hfind := by
    rw [Item.get?_set_of_ne _ _ (hname field hmem hpersist)]
    exact hholds.held field hmem hpersist held hfind

/-- What is read of a field. -/
def readMember (held : List (String × (FieldSchema → Except Error Value))) (field : FieldSchema) :
    Except Error Value :=
  match Entries.find? held field.wireName with
  | some read => if field.persist then read field else .ok field.absentValue
  | none => .ok field.absentValue

theorem readMembers_cons (held : List (String × (FieldSchema → Except Error Value)))
    (record : Record) (field : FieldSchema) (rest : List FieldSchema) :
    readMembers held record (field :: rest) =
      (readMember held field).bind fun value => readMembers held (record.set field.name value) rest := by
  rw [readMembers, readMember]
  cases Entries.find? held field.wireName with
  | none => rfl
  | some read => cases field.persist <;> rfl

/-- Reading an object sets what is read of each field. -/
theorem readMembers_eq {held : List (String × (FieldSchema → Except Error Value))}
    {member : FieldSchema → Value} {record : Record}
    (hread : ∀ field ∈ declared, readMember held field = .ok (member field)) :
    readMembers held record declared = .ok (record.fill member declared) := by
  induction declared generalizing record with
  | nil => rfl
  | cons field rest ih =>
    rw [readMembers_cons, hread field List.mem_cons_self, Except.bind,
      ih fun other hmem => hread other (.tail _ hmem)]
    rfl

/-- Reading what is stored of an object fills it in. -/
theorem HoldsFields.readMembers_eq {item : Item} (hholds : HoldsFields table fields declared item)
    (record : Record) :
    readMembers (decodeFields table item) record declared =
      .ok (record.fill (FieldSchema.fill (Value.normalFields table fields)) declared) := by
  refine Codec.readMembers_eq fun field hmem => ?_
  rw [readMember, find?_decodeFields, FieldSchema.fill, Value.find?_normalFields]
  cases hpersist : field.persist with
  | false => cases Item.get? item field.wireName <;> cases Entries.find? fields field.name <;> rfl
  | true =>
    cases hfind : Entries.find? fields field.name with
    | none =>
      rw [hholds.unset field hmem hpersist hfind]
      rfl
    | some value =>
      obtain ⟨stored, hstored, hdecode⟩ := hholds.held field hmem hpersist value hfind
      rw [hstored]
      exact hdecode

variable {held : List (String × (FieldSchema → Except Error Attribute))}

theorem exists_storeMembers (hheld : ∀ field ∈ declared, field.persist = true →
      ∀ store, Entries.find? held field.name = some store → ∃ stored, store field = .ok stored) :
    ∃ item, storeMembers held declared = .ok item := by
  induction declared with
  | nil => exact ⟨[], rfl⟩
  | cons field rest ih =>
    obtain ⟨others, hothers⟩ := ih fun other hmem => hheld other (.tail _ hmem)
    rcases storeMembers_cases held field with ⟨store, hstore, hpersist⟩ | hskip
    · obtain ⟨stored, hstored⟩ := hheld field List.mem_cons_self hpersist store hstore
      refine ⟨Item.set others field.wireName stored, ?_⟩
      rw [storeMembers, hstore]
      dsimp only
      rw [if_pos hpersist, hstored, ok_bind, hothers]
      rfl
    · rw [storeMembers_cons_skip hskip]
      exact ⟨others, hothers⟩

theorem find?_encodeFields_eq {fields : List (String × Value)}
    (hset : ∀ name value, (name, value) ∈ fields → value.isNull = false) (name : String) :
    Entries.find? (encodeFields table fields) name =
      (Entries.find? fields name).map fun value field => encodeField table field value := by
  induction fields with
  | nil => rw [encodeFields]; rfl
  | cons entry rest ih =>
    obtain ⟨key, value⟩ := entry
    rw [encodeFields_cons (hset key value List.mem_cons_self), Entries.find?_cons,
      Entries.find?_cons, ih fun name other hmem => hset name other (.tail _ hmem)]
    split <;> rfl

theorem forM_requireField {type : TypeSchema} {names : List String}
    (hknown : ∀ name ∈ names, (type.field? name).isSome = true) :
    names.forM (fun name => (type.requireField name).map fun _ => ()) = .ok () := by
  refine forM_eq_ok fun name hmem => ?_
  obtain ⟨field, hfound⟩ := Option.isSome_iff_exists.mp (hknown name hmem)
  rw [TypeSchema.requireField_eq_ok_iff.mpr hfound]
  rfl

/-- An object whose fields are all declared, and restored where they are persisted, can be stored. -/
theorem exists_storeObject {type : TypeSchema}
    (hnames : (type.fields.map FieldSchema.name).Nodup) (hwire : (wireNames type.fields).Nodup)
    (hset : ∀ name value, (name, value) ∈ fields → value.isNull = false)
    (hknown : ∀ name ∈ Entries.names fields, (type.field? name).isSome = true)
    (hrestores : ∀ name value field, (name, value) ∈ fields → type.field? name = some field →
      field.persist = true → Restores table field.storage field.type value) :
    ∃ item, storeObject type (Entries.names fields) (encodeFields table fields) = .ok item ∧
      HoldsFields table fields type.fields item := by
  have hfind := @find?_encodeFields_eq table fields hset
  have hfield : ∀ field ∈ type.fields, type.field? field.name = some field :=
    fun field hmem => (TypeSchema.field?_eq_some_iff hnames).mpr ⟨hmem, rfl⟩
  obtain ⟨item, hitem⟩ := @exists_storeMembers type.fields (encodeFields table fields) (by
    intro field hmem hpersist store hstore
    rw [hfind] at hstore
    obtain ⟨value, hvalue, rfl⟩ := Option.map_eq_some_iff.mp hstore
    obtain ⟨stored, hencode, _⟩ := hrestores field.name value field (Entries.mem_of_find? hvalue)
      (hfield field hmem) hpersist
    exact ⟨stored, hencode⟩)
  refine ⟨item, ?_, ?_, ?_⟩
  · rw [storeObject, forM_requireField hknown]
    exact hitem
  · intro field hmem hpersist hnone
    refine get?_storeMembers_of_unset hitem hwire hmem hpersist ?_
    rw [hfind, hnone, Option.map_none]
  · intro field hmem hpersist value hvalue
    obtain ⟨stored, hencode, hdecode⟩ := hrestores field.name value field
      (Entries.mem_of_find? hvalue) (hfield field hmem) hpersist
    obtain ⟨other, hother, hget⟩ := get?_storeMembers hitem hwire hmem hpersist (by
      rw [hfind, hvalue, Option.map_some])
    rw [encodeField, hencode] at hother
    cases hother
    exact ⟨stored, hget, hdecode⟩

/-- Only objects of the declared type are stored. -/
theorem typeName_of_encode {expected typeName : String} {fields : List (String × Value)}
    {revision : Int64} {stored : Attribute}
    (hstore : encode table .plain (.scalar (.object expected)) (.object typeName fields revision) =
      .ok stored) : typeName = expected := by
  by_contra hne
  have herror : encode table .plain (.scalar (.object expected))
      (.object typeName fields revision) = .error (.codec (.unexpectedObject expected typeName)) :=
    if_pos hne
  cases herror.symm.trans hstore

theorem encode_object_eq (typeName : String) (fields : List (String × Value)) (revision : Int64) :
    encode table .plain (.scalar (.object typeName)) (.object typeName fields revision) =
      (table.requireType typeName >>= fun type =>
        (storeObject type (Entries.names fields) (encodeFields table fields)).map .map) := by
  change (do
    if typeName ≠ typeName then throw (Error.codec (.unexpectedObject typeName typeName))
    let object ← table.requireType typeName
    return Attribute.map (← storeObject object (Entries.names fields) (encodeFields table fields))) = _
  rw [if_neg (not_not_intro rfl)]
  dsimp only
  cases table.requireType typeName with
  | error => rfl
  | ok type =>
    rw [ok_bind, ok_bind]
    cases storeObject type (Entries.names fields) (encodeFields table fields) <;> rfl

theorem decode_object_eq {typeName : String} {type : TypeSchema}
    (hdeclared : table.type? typeName = some type) (item : Item) :
    decode table .plain (.scalar (.object typeName)) (.map item) =
      (readMembers (decodeFields table item) (.empty typeName) type.fields).map Record.toValue := by
  have hname : type.name = typeName := by simpa using List.find?_some hdeclared
  change (do
    let object ← table.requireType typeName
    let record ← readMembers (decodeFields table item) (.empty object.name) object.fields
    return record.toValue) = _
  rw [TableSchema.requireType_eq_ok_iff.mpr hdeclared, ok_bind, hname]
  cases readMembers (decodeFields table item) (.empty typeName) type.fields <;> rfl

/-- An object of a declared type is restored when its persisted fields are. -/
theorem restores_object {typeName : String} {type : TypeSchema} (haccepted : table.Accepted)
    (hdeclared : table.type? typeName = some type)
    (hset : ∀ name value, (name, value) ∈ fields → value.isNull = false)
    (hknown : ∀ name ∈ Entries.names fields, (type.field? name).isSome = true)
    (hrestores : ∀ name value field, (name, value) ∈ fields → type.field? name = some field →
      field.persist = true → Restores table field.storage field.type value) :
    Restores table .plain (.scalar (.object typeName)) (.object typeName fields 0) := by
  have hdistinct := haccepted.fields _ (List.mem_of_find?_eq_some hdeclared)
  obtain ⟨item, hitem, hholds⟩ :=
    exists_storeObject hdistinct.names hdistinct.wireNames hset hknown hrestores
  refine ⟨.map item, ?_, ?_⟩
  · rw [encode_object_eq, TableSchema.requireType_eq_ok_iff.mpr hdeclared, ok_bind, hitem]
    rfl
  · rw [decode_object_eq hdeclared, hholds.readMembers_eq, Storage.select, Value.normal, hdeclared]
    rfl

end Codec

end RecordStore
