import RecordStore.Proofs.Codec.RoundTrip

/-!
# Fields that do not show

Neither the documents nor the items that are written of a value depend on the fields that opt out,
at any depth: what is written is written of the value without them. Elements of a list that is
stored by id are the exception. They are stored by the type that the list declares, whatever type
they have, so that the fields that opt out are those of that type.
-/

namespace RecordStore

/-! ### What a document shows -/

namespace Value

mutual

/-- The value without the fields that a selection leaves out. -/
def shown (table : TableSchema) (selection : Codec.Selection) : Value → Value
  | .object typeName fields revision =>
    .object typeName (shownFields table selection (table.type? typeName) fields) revision
  | .list items => .list (shownItems table selection items)
  | .set elements => .set (shownItems table selection elements)
  | .map entries => .map (shownEntries table selection entries)
  | value => value

def shownItems (table : TableSchema) (selection : Codec.Selection) : List Value → List Value
  | [] => []
  | item :: rest => item.shown table selection :: shownItems table selection rest

def shownEntries (table : TableSchema) (selection : Codec.Selection) :
    List (String × Value) → List (String × Value)
  | [] => []
  | (name, value) :: rest =>
    (name, value.shown table selection) :: shownEntries table selection rest

/-- Names that are not declared are kept. -/
def shownFields (table : TableSchema) (selection : Codec.Selection) (declared : Option TypeSchema) :
    List (String × Value) → List (String × Value)
  | [] => []
  | (name, value) :: rest =>
    if (declared.bind fun type => type.field? name).all selection.includes then
      (name, value.shown table selection) :: shownFields table selection declared rest
    else shownFields table selection declared rest

end

end Value

namespace Codec

variable {table : TableSchema} {selection : Selection}

/-- Only the fields that are included are looked up. -/
theorem selectMembers_congr {left right : List (String × Except Error Json)}
    {fields : List FieldSchema}
    (hsame : ∀ field ∈ fields, selection.includes field = true →
      Entries.find? left field.name = Entries.find? right field.name) :
    selectMembers selection left fields = selectMembers selection right fields := by
  induction fields with
  | nil => rfl
  | cons field rest ih =>
    have hrest := ih fun other hmem => hsame other (.tail _ hmem)
    rw [selectMembers, selectMembers, hrest]
    cases hincludes : selection.includes field with
    | true => rw [hsame field List.mem_cons_self hincludes]
    | false =>
      cases Entries.find? left field.name <;> cases Entries.find? right field.name <;> rfl

mutual

/-- A document is written of what it shows. -/
theorem toJson_shown (haccepted : table.Accepted) : ∀ value : Value,
    toJson table selection (value.shown table selection) = toJson table selection value
  | .null | .boolean _ | .number _ | .string _ | .binary _ => rfl
  | .object typeName fields revision => by
    rw [Value.shown, toJson, toJson]
    cases hdeclared : table.requireType typeName with
    | error error => rfl
    | ok declared =>
      have hfind := TableSchema.requireType_eq_ok_iff.mp hdeclared
      have hnames := haccepted.names_of_type? hfind
      rw [ok_bind, ok_bind, hfind, selectMembers_congr fun field hmem hincludes => ?_]
      have hfield := (TypeSchema.field?_eq_some_iff hnames).mpr ⟨hmem, rfl⟩
      refine find?_memberJsons_shown haccepted fields (some declared) field.name ?_
      rw [Option.bind_some, hfield]
      exact hincludes
  | .list items => by rw [Value.shown, toJson, toJson, itemJsons_shown haccepted items]
  | .set elements => by rw [Value.shown, toJson, toJson, itemJsons_shown haccepted elements]
  | .map entries => by rw [Value.shown, toJson, toJson, entryJsons_shown haccepted entries]

theorem itemJsons_shown (haccepted : table.Accepted) : ∀ items : List Value,
    itemJsons table selection (Value.shownItems table selection items) =
      itemJsons table selection items
  | [] => rfl
  | item :: rest => by
    rw [Value.shownItems, itemJsons, itemJsons, toJson_shown haccepted item,
      itemJsons_shown haccepted rest]

theorem entryJsons_shown (haccepted : table.Accepted) : ∀ entries : List (String × Value),
    entryJsons table selection (Value.shownEntries table selection entries) =
      entryJsons table selection entries
  | [] => rfl
  | (name, value) :: rest => by
    rw [Value.shownEntries, entryJsons, entryJsons, toJson_shown haccepted value,
      entryJsons_shown haccepted rest]

theorem find?_memberJsons_shown (haccepted : table.Accepted) :
    ∀ (fields : List (String × Value)) (declared : Option TypeSchema) (name : String),
    (declared.bind fun type => type.field? name).all selection.includes = true →
    Entries.find? (memberJsons table selection
      (Value.shownFields table selection declared fields)) name =
        Entries.find? (memberJsons table selection fields) name
  | [], _, _, _ => rfl
  | (key, value) :: rest, declared, name, hshown => by
    have hrest := find?_memberJsons_shown haccepted rest declared name hshown
    rw [Value.shownFields, memberJsons, Entries.find?_cons]
    by_cases hkey : key = name
    · rw [hkey, if_pos hshown, memberJsons, Entries.find?_cons, if_pos rfl, if_pos rfl,
        toJson_shown haccepted value]
    · rw [if_neg hkey]
      split
      · rw [memberJsons, Entries.find?_cons, if_neg hkey, hrest]
      · exact hrest

end

/-! ### What an item stores -/

end Codec

/-- The type that a declared type asks objects to have. -/
def ValueType.objectType? (table : TableSchema) (type : ValueType) : Option TypeSchema :=
  match type.element with
  | some (.object typeName) => table.type? typeName
  | _ => none

namespace Value

mutual

/-- The value without the fields that are not stored when it is stored by a declared type. The
elements of a list that is stored by id are judged by the type that the list declares, and keep
their ids. -/
def retained (table : TableSchema) (storage : Storage) (type : ValueType) (value : Value) : Value :=
  match storage, value with
  | ⟨true, _⟩, value => value.shown table .stored
  | ⟨false, _⟩, .object typeName fields revision =>
    .object typeName (retainedFields table (table.type? typeName) false fields) revision
  | ⟨false, some _⟩, .list items => .list (retainedById table (type.objectType? table) items)
  | ⟨false, none⟩, .list items => .list (retainedItems table ⟨.scalar, type.element⟩ items)
  | ⟨false, _⟩, .set elements => .set (retainedItems table ⟨.scalar, type.element⟩ elements)
  | ⟨false, _⟩, .map entries => .map (retainedEntries table ⟨.scalar, type.element⟩ entries)
  | _, value => value

def retainedItems (table : TableSchema) (type : ValueType) : List Value → List Value
  | [] => []
  | item :: rest => item.retained table .plain type :: retainedItems table type rest

def retainedById (table : TableSchema) (declared : Option TypeSchema) : List Value → List Value
  | [] => []
  | .object typeName fields revision :: rest =>
    .object typeName (retainedFields table declared true fields) revision ::
      retainedById table declared rest
  | item :: rest => item :: retainedById table declared rest

def retainedEntries (table : TableSchema) (type : ValueType) :
    List (String × Value) → List (String × Value)
  | [] => []
  | (name, value) :: rest =>
    (name, value.retained table .plain type) :: retainedEntries table type rest

/-- Names that are not declared are kept, and so is an id where objects are stored by it. -/
def retainedFields (table : TableSchema) (declared : Option TypeSchema) (byId : Bool) :
    List (String × Value) → List (String × Value)
  | [] => []
  | (name, value) :: rest =>
    match declared.bind fun type => type.field? name with
    | none => (name, value) :: retainedFields table declared byId rest
    | some field =>
      if field.persist then
        (name, value.retained table field.storage field.type) ::
          retainedFields table declared byId rest
      else if byId && name = "id" then (name, value) :: retainedFields table declared byId rest
      else retainedFields table declared byId rest

end

end Value

namespace Codec

/-- Only the fields that are stored are looked up, each by its own declaration. -/
theorem storeMembers_congr {left right : List (String × (FieldSchema → Except Error Attribute))}
    {fields : List FieldSchema}
    (hsame : ∀ field ∈ fields, field.persist = true →
      (Entries.find? left field.name).map (· field) =
        (Entries.find? right field.name).map (· field)) :
    storeMembers left fields = storeMembers right fields := by
  induction fields with
  | nil => rfl
  | cons field rest ih =>
    have hrest := ih fun other hmem => hsame other (.tail _ hmem)
    cases hpersist : field.persist with
    | false =>
      rw [storeMembers_cons_skip (.inr hpersist), storeMembers_cons_skip (.inr hpersist), hrest]
    | true =>
      have hfield := hsame field List.mem_cons_self hpersist
      rw [storeMembers, storeMembers, hrest]
      cases hleft : Entries.find? left field.name with
      | none =>
        rw [hleft, Option.map_none, eq_comm, Option.map_eq_none_iff] at hfield
        rw [hfield]
      | some store =>
        rw [hleft, Option.map_some, eq_comm, Option.map_eq_some_iff] at hfield
        obtain ⟨other, hright, hstore⟩ := hfield
        rw [hright]
        simp only [hpersist, if_true, hstore]

/-- Leaving out fields that are declared leaves out no check. -/
theorem requireFields_retained (object : TypeSchema) (byId : Bool)
    (fields : List (String × Value)) :
    (Entries.names (Value.retainedFields table (some object) byId fields)).forM
        (fun name => (object.requireField name).map fun _ => ()) =
      (Entries.names fields).forM fun name => (object.requireField name).map fun _ => () := by
  induction fields with
  | nil => rfl
  | cons entry rest ih =>
    obtain ⟨name, value⟩ := entry
    change _ = ((object.requireField name).map fun _ => ()) >>= fun _ =>
      (Entries.names rest).forM fun name => (object.requireField name).map fun _ => ()
    rw [← ih, Value.retainedFields]
    cases hfield : (some object).bind fun type => type.field? name with
    | none => rfl
    | some field =>
      have hrequire := TypeSchema.requireField_eq_ok_iff.mpr hfield
      dsimp only
      split
      · rfl
      · split
        · rfl
        · rw [hrequire]
          rfl

theorem isNull_retained (storage : Storage) (type : ValueType) (value : Value) :
    (value.retained table storage type).isNull = value.isNull := by
  obtain ⟨_ | _, _ | _⟩ := storage <;> cases value <;> rfl

theorem idText_retained (typeName : String) (declared : Option TypeSchema)
    (fields : List (String × Value)) :
    idText typeName (Value.retainedFields table declared true fields) = idText typeName fields := by
  have hid : ∀ storage type rest others (value : Value),
      idText typeName (("id", value.retained table storage type) :: rest) =
        idText typeName (("id", value) :: others) := by
    intro storage type rest others value
    obtain ⟨_ | _, _ | _⟩ := storage <;> cases value <;> rfl
  have hskip : ∀ name value (rest : List (String × Value)), name ≠ "id" →
      idText typeName ((name, value) :: rest) = idText typeName rest := by
    intro name value rest hname
    rw [idText, idText, Entries.find?_cons, if_neg hname]
  induction fields with
  | nil => rfl
  | cons entry rest ih =>
    obtain ⟨name, value⟩ := entry
    rw [Value.retainedFields]
    by_cases hname : name = "id"
    · subst hname
      cases declared.bind fun type => type.field? "id" with
      | none => rfl
      | some field =>
        dsimp only
        split
        · exact hid _ _ _ _ value
        · rfl
    · rw [hskip name value rest hname]
      cases declared.bind fun type => type.field? name with
      | none => exact (hskip name value _ hname).trans ih
      | some field =>
        dsimp only
        split
        · exact (hskip name _ _ hname).trans ih
        · rw [if_neg (by simp [hname])]
          exact ih

theorem mapM_retained {α : Type} {read : Value → Except Error α} {type : ValueType}
    (hread : ∀ value : Value, read (value.retained table .plain type) = read value)
    (items : List Value) : (Value.retainedItems table type items).mapM read = items.mapM read := by
  induction items with
  | nil => rfl
  | cons item rest ih => rw [Value.retainedItems, List.mapM_cons, List.mapM_cons, hread, ih]

theorem encodeSet_retained (element : ElementType) (type : ValueType) (elements : List Value) :
    encodeSet element (Value.retainedItems table type elements) = encodeSet element elements := by
  have hempty : (Value.retainedItems table type elements).isEmpty = elements.isEmpty := by
    cases elements <;> rfl
  have hstring : ∀ value : Value,
      stringElement (value.retained table .plain type) = stringElement value := by
    intro value
    cases value <;> rfl
  have hbinary : ∀ value : Value,
      binaryElement (value.retained table .plain type) = binaryElement value := by
    intro value
    cases value <;> rfl
  have hnumber : ∀ element (value : Value),
      numberElement element (value.retained table .plain type) = numberElement element value := by
    intro element value
    cases value <;> rfl
  unfold encodeSet
  simp only [hempty, mapM_retained hstring, mapM_retained hbinary, mapM_retained (hnumber _)]

theorem storeObject_retained {object : TypeSchema} {byId : Bool} {fields : List (String × Value)}
    (hnames : (object.fields.map FieldSchema.name).Nodup)
    (hfields : ∀ field, object.field? field.name = some field → field.persist = true →
      (Entries.find? (encodeFields table (Value.retainedFields table (some object) byId fields))
        field.name).map (· field) =
        (Entries.find? (encodeFields table fields) field.name).map (· field)) :
    storeObject object (Entries.names (Value.retainedFields table (some object) byId fields))
        (encodeFields table (Value.retainedFields table (some object) byId fields)) =
      storeObject object (Entries.names fields) (encodeFields table fields) := by
  rw [storeObject, storeObject, requireFields_retained, storeMembers_congr fun field hmem => ?_]
  exact hfields field ((TypeSchema.field?_eq_some_iff hnames).mpr ⟨hmem, rfl⟩)

theorem eq_null_of_isNull {value : Value} (hnull : value.isNull = true) : value = .null := by
  cases value <;> first | rfl | cases hnull

theorem find?_encodeFields_of_ne {name other : String} (value : Value)
    (rest : List (String × Value)) (hname : name ≠ other) :
    Entries.find? (encodeFields table ((name, value) :: rest)) other =
      Entries.find? (encodeFields table rest) other := by
  cases hnull : value.isNull with
  | true =>
    rw [eq_null_of_isNull hnull, encodeFields_cons_null]
  | false => rw [encodeFields_cons hnull, Entries.find?_cons, if_neg hname]

theorem encode_retained_of {value : Value} (haccepted : table.Accepted)
    (huncompressed : ∀ byId type, encode table ⟨false, byId⟩ type
      (value.retained table ⟨false, byId⟩ type) = encode table ⟨false, byId⟩ type value)
    (storage : Storage) (type : ValueType) :
    encode table storage type (value.retained table storage type) =
      encode table storage type value := by
  obtain ⟨_ | _, byId⟩ := storage
  · exact huncompressed byId type
  · rw [Value.retained, encode_compressed_eq, encode_compressed_eq, toJson_shown haccepted value]

mutual

/-- What is stored plainly or by ids is stored of what it retains. -/
theorem encode_retained_uncompressed (haccepted : table.Accepted) :
    ∀ (value : Value) (byId : Option String) (type : ValueType),
      encode table ⟨false, byId⟩ type (value.retained table ⟨false, byId⟩ type) =
        encode table ⟨false, byId⟩ type value
  | .null, byId, _ | .boolean _, byId, _ | .number _, byId, _ | .string _, byId, _
  | .binary _, byId, _ => by cases byId <;> rfl
  | .object .., some _, ⟨_, none⟩ | .set _, some _, ⟨_, none⟩ | .map _, some _, ⟨_, none⟩
  | .list _, some _, ⟨_, none⟩ => rfl
  | .object .., none, ⟨_, none⟩ | .set _, none, ⟨_, none⟩ | .map _, none, ⟨_, none⟩
  | .list _, none, ⟨_, none⟩ => rfl
  | .object .., some _, ⟨_, some element⟩ | .set _, some _, ⟨_, some element⟩
  | .map _, some _, ⟨_, some element⟩ => by cases element <;> rfl
  | .object typeName fields revision, none, ⟨kind, some element⟩ => by
    cases kind with
    | list | map | set => cases element <;> rfl
    | scalar =>
      cases element with
      | object expected =>
        by_cases hsame : typeName = expected
        · subst hsame
          refine ((encode_object_eq _ _ revision).trans ?_).trans (encode_object_eq _ _ _).symm
          cases hdeclared : table.requireType typeName with
          | error error => rfl
          | ok object =>
            have hfind := TableSchema.requireType_eq_ok_iff.mp hdeclared
            rw [ok_bind, ok_bind, hfind, storeObject_retained (haccepted.names_of_type? hfind)
              fun field => find?_encodeFields_retained haccepted fields object false field]
        · exact (if_pos hsame).trans (if_pos hsame).symm
      | _ => rfl
  | .list items, some name, ⟨kind, some element⟩ => by
    cases element with
    | object typeName =>
      change (do
        let object ← table.requireType typeName
        return Attribute.map (Item.ofEntries (← encodeById table ⟨kind, some (.object typeName)⟩
          object (Value.retainedById table (table.type? typeName) items)))) = (do
        let object ← table.requireType typeName
        return Attribute.map (Item.ofEntries (← encodeById table ⟨kind, some (.object typeName)⟩
          object items)))
      cases hdeclared : table.requireType typeName with
      | error error => rfl
      | ok object =>
        have hfind := TableSchema.requireType_eq_ok_iff.mp hdeclared
        rw [ok_bind, ok_bind, hfind,
          encodeById_retained haccepted items _ (haccepted.names_of_type? hfind)]
    | _ => rfl
  | .list items, none, ⟨kind, some element⟩ => by
    cases kind with
    | list =>
      change (do return Attribute.list (← encodeItems table element
        (Value.retainedItems table (.scalar element) items))) =
          (do return Attribute.list (← encodeItems table element items))
      rw [encodeItems_retained haccepted items element]
    | set => exact encodeSet_retained element _ items
    | scalar | map => cases element <;> rfl
  | .set elements, none, ⟨kind, some element⟩ => by
    cases kind with
    | list =>
      change (do return Attribute.list (← encodeItems table element
        (Value.retainedItems table (.scalar element) elements))) =
          (do return Attribute.list (← encodeItems table element elements))
      rw [encodeItems_retained haccepted elements element]
    | set => exact encodeSet_retained element _ elements
    | scalar | map => cases element <;> rfl
  | .map entries, none, ⟨kind, some element⟩ => by
    cases kind with
    | map =>
      change (do return Attribute.map (Item.ofEntries (← encodeEntries table element
        (Value.retainedEntries table (.scalar element) entries)))) =
          (do return Attribute.map (Item.ofEntries (← encodeEntries table element entries)))
      rw [encodeEntries_retained haccepted entries element]
    | scalar | list | set => cases element <;> rfl

theorem encodeItems_retained (haccepted : table.Accepted) :
    ∀ (items : List Value) (element : ElementType),
      encodeItems table element (Value.retainedItems table (.scalar element) items) =
        encodeItems table element items
  | [], _ => rfl
  | item :: rest, element => by
    have hitem : encode table .plain (.scalar element)
        (item.retained table .plain (.scalar element)) =
          encode table .plain (.scalar element) item :=
      encode_retained_uncompressed haccepted item none (.scalar element)
    rw [Value.retainedItems, encodeItems, encodeItems, hitem,
      encodeItems_retained haccepted rest element]

theorem encodeEntries_retained (haccepted : table.Accepted) :
    ∀ (entries : List (String × Value)) (element : ElementType),
      encodeEntries table element (Value.retainedEntries table (.scalar element) entries) =
        encodeEntries table element entries
  | [], _ => rfl
  | (name, value) :: rest, element => by
    have hvalue : encode table .plain (.scalar element)
        (value.retained table .plain (.scalar element)) =
          encode table .plain (.scalar element) value :=
      encode_retained_uncompressed haccepted value none (.scalar element)
    rw [Value.retainedEntries, encodeEntries, encodeEntries, hvalue,
      encodeEntries_retained haccepted rest element]

theorem encodeById_retained (haccepted : table.Accepted) :
    ∀ (items : List Value) (type : ValueType) {object : TypeSchema},
      (object.fields.map FieldSchema.name).Nodup →
      encodeById table type object (Value.retainedById table (some object) items) =
        encodeById table type object items
  | [], _, _, _ => rfl
  | .object typeName fields revision :: rest, type, object, hnames => by
    rw [Value.retainedById, encodeById, encodeById, idText_retained, storeObject_retained hnames
      fun field => find?_encodeFields_retained haccepted fields object true field,
      encodeById_retained haccepted rest type hnames]
  | .null :: _, _, _, _ | .boolean _ :: _, _, _, _ | .number _ :: _, _, _, _
  | .string _ :: _, _, _, _ | .binary _ :: _, _, _, _ | .list _ :: _, _, _, _
  | .set _ :: _, _, _, _ | .map _ :: _, _, _, _ => rfl

theorem find?_encodeFields_retained (haccepted : table.Accepted) :
    ∀ (fields : List (String × Value)) (declared : TypeSchema) (byId : Bool) (field : FieldSchema),
      declared.field? field.name = some field → field.persist = true →
      (Entries.find? (encodeFields table (Value.retainedFields table (some declared) byId fields))
        field.name).map (· field) =
        (Entries.find? (encodeFields table fields) field.name).map (· field)
  | [], _, _, _, _, _ => rfl
  | (name, value) :: rest, declared, byId, field, hfield, hpersist => by
    have hrest := find?_encodeFields_retained haccepted rest declared byId field hfield hpersist
    have hvalue := encode_retained_of haccepted (encode_retained_uncompressed haccepted value)
    by_cases hname : name = field.name
    · have hbind : ((some declared).bind fun type => type.field? name) = some field := by
        rw [hname]
        exact hfield
      rw [Value.retainedFields, hbind]
      dsimp only
      rw [if_pos hpersist]
      cases hnull : value.isNull with
      | true =>
        have hretained := (@isNull_retained table field.storage field.type value).trans hnull
        rw [eq_null_of_isNull hretained, eq_null_of_isNull hnull, encodeFields_cons_null,
          encodeFields_cons_null]
        exact hrest
      | false =>
        have hretained := (@isNull_retained table field.storage field.type value).trans hnull
        rw [encodeFields_cons hretained, encodeFields_cons hnull, Entries.find?_cons,
          Entries.find?_cons, if_pos hname, if_pos hname, Option.map_some, Option.map_some]
        exact congrArg some (hvalue field.storage field.type)
    · rw [find?_encodeFields_of_ne value rest hname, Value.retainedFields]
      cases (some declared).bind fun type => type.field? name with
      | none => exact (congrArg _ (find?_encodeFields_of_ne _ _ hname)).trans hrest
      | some other =>
        dsimp only
        split
        · exact (congrArg _ (find?_encodeFields_of_ne _ _ hname)).trans hrest
        · split
          · exact (congrArg _ (find?_encodeFields_of_ne _ _ hname)).trans hrest
          · exact hrest

end

theorem encode_retained (haccepted : table.Accepted) (storage : Storage) (type : ValueType)
    (value : Value) :
    encode table storage type (value.retained table storage type) =
      encode table storage type value :=
  encode_retained_of haccepted (encode_retained_uncompressed haccepted value) storage type

end Codec

/-! ### Records -/

namespace Entries

variable {α β : Type} {pick : String × α → Option β} {name : String}

theorem filterMap_put_of_none (hnone : ∀ value, pick (name, value) = none)
    (entries : List (String × α)) (value : α) :
    (put entries name value).filterMap pick = entries.filterMap pick := by
  induction entries with
  | nil => rw [put, List.filterMap_cons_none (hnone value)]
  | cons entry rest ih =>
    obtain ⟨key, held⟩ := entry
    unfold put
    split
    · rename_i hkey
      subst hkey
      rw [List.filterMap_cons_none (hnone value), List.filterMap_cons_none (hnone held)]
    · rw [List.filterMap_cons, List.filterMap_cons, ih]

theorem filterMap_erase_of_none (hnone : ∀ value, pick (name, value) = none)
    (entries : List (String × α)) :
    (erase entries name).filterMap pick = entries.filterMap pick := by
  induction entries with
  | nil => rfl
  | cons entry rest ih =>
    obtain ⟨key, held⟩ := entry
    unfold erase
    split
    · rename_i hkey
      subst hkey
      rw [List.filterMap_cons_none (hnone held), ih]
    · rw [List.filterMap_cons, List.filterMap_cons, ih]

end Entries

namespace Value

variable {table : TableSchema}

theorem shownFields_eq (selection : Codec.Selection) (declared : Option TypeSchema)
    (fields : List (String × Value)) :
    shownFields table selection declared fields = fields.filterMap fun entry =>
      if (declared.bind fun type => type.field? entry.1).all selection.includes then
        some (entry.1, entry.2.shown table selection) else none := by
  induction fields with
  | nil => rfl
  | cons entry rest ih =>
    obtain ⟨name, value⟩ := entry
    rw [shownFields, List.filterMap_cons, ih]
    split <;> rfl

theorem retainedFields_eq (declared : Option TypeSchema) (fields : List (String × Value)) :
    retainedFields table declared false fields = fields.filterMap fun entry =>
      match declared.bind fun type => type.field? entry.1 with
      | none => some entry
      | some field =>
        if field.persist then some (entry.1, entry.2.retained table field.storage field.type)
        else none := by
  induction fields with
  | nil => rfl
  | cons entry rest ih =>
    obtain ⟨name, value⟩ := entry
    rw [retainedFields, List.filterMap_cons, ih]
    cases declared.bind fun type => type.field? name with
    | none => rfl
    | some field =>
      dsimp only
      split <;> rfl

end Value

namespace Record

variable {table : TableSchema} {left right : Record} {name : String} {field : FieldSchema}

/-- Records that show the same are exported as the same, or fail with the same error. -/
theorem toExport_congr (haccepted : table.Accepted)
    (hsame : left.toValue.shown table .exported = right.toValue.shown table .exported) :
    left.toExport table = right.toExport table := by
  rw [toExport, toExport, ← Codec.toJson_shown haccepted left.toValue, hsame,
    Codec.toJson_shown haccepted]

/-- The record without the fields that storing it leaves out. -/
def retained (table : TableSchema) (record : Record) : Record :=
  { record with fields := Value.retainedFields table (some table.root) false record.fields }

theorem toItem_retained (haccepted : table.Accepted) (record : Record) :
    (record.retained table).toItem table = record.toItem table := by
  have hnames := (haccepted.fields table.root haccepted.root_mem).names
  have hobject : Codec.encodeObject table table.root (record.retained table) =
      Codec.encodeObject table table.root record :=
    Codec.storeObject_retained hnames fun field =>
      Codec.find?_encodeFields_retained haccepted record.fields table.root false field
  rw [toItem, toItem, hobject]
  rfl

/-- Records that retain the same are stored as the same, or fail with the same error. -/
theorem toItem_congr (haccepted : table.Accepted)
    (hsame : left.retained table = right.retained table) :
    left.toItem table = right.toItem table := by
  rw [← toItem_retained haccepted left, hsame, toItem_retained haccepted]

/-- The labels of lines are not stored, so that they make no difference to what is. -/
example (first second : String) :
    Record.retained orderTable ⟨"Order", [("lines", .list [orderLine 9 first])], 3⟩ =
      Record.retained orderTable ⟨"Order", [("lines", .list [orderLine 9 second])], 3⟩ := by
  rfl

theorem filterMap_set {β : Type} {pick : String × Value → Option β}
    (hnone : ∀ value, pick (name, value) = none) (record : Record) (value : Value) :
    (record.set name value).fields.filterMap pick = record.fields.filterMap pick := by
  rw [set]
  dsimp only
  split
  · exact Entries.filterMap_erase_of_none hnone _
  · exact Entries.filterMap_put_of_none hnone _ value

/-- Setting or unsetting a field that opts out of exports changes no export. -/
theorem toExport_set (haccepted : table.Accepted) {declared : TypeSchema}
    (hdeclared : table.type? left.typeName = some declared)
    (hfield : declared.field? name = some field) (hserialize : field.serialize = false)
    (value : Value) :
    (left.set name value).toExport table = left.toExport table := by
  have hfields : Value.shownFields table .exported (some declared) (left.set name value).fields =
      Value.shownFields table .exported (some declared) left.fields := by
    rw [Value.shownFields_eq, Value.shownFields_eq]
    refine filterMap_set (fun other => if_neg ?_) left value
    rw [Option.bind_some, hfield, Option.all_some, Codec.Selection.includes, hserialize]
    exact Bool.false_ne_true
  refine toExport_congr haccepted ?_
  rw [toValue, toValue, Value.shown, Value.shown]
  change Value.object left.typeName (Value.shownFields table .exported (table.type? left.typeName)
    (left.set name value).fields) left.revision = _
  rw [hdeclared, hfields]

/-- Setting or unsetting a field that is not stored changes no item. -/
theorem toItem_set (haccepted : table.Accepted) (hfield : table.root.field? name = some field)
    (hpersist : field.persist = false) (value : Value) :
    (left.set name value).toItem table = left.toItem table := by
  have hfields : Value.retainedFields table (some table.root) false (left.set name value).fields =
      Value.retainedFields table (some table.root) false left.fields := by
    rw [Value.retainedFields_eq, Value.retainedFields_eq]
    refine filterMap_set (fun other => ?_) left value
    rw [Option.bind_some, hfield]
    exact if_neg (by rw [hpersist]; exact Bool.false_ne_true)
  refine toItem_congr haccepted ?_
  rw [retained, retained, hfields]
  rfl

end Record

end RecordStore
