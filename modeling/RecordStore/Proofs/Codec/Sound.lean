import RecordStore.Proofs.Codec.Demand
import RecordStore.Proofs.Schema.Defaults

/-!
# Values that are read

Whatever is stored, reading it yields a value of the declared type at every depth or fails with a
codec error. Items of lists and values of maps may be null besides. Sets are the exception: a native
set is read without a look at the declared type of its elements, and a set that is stored as a list
may hold nulls.
-/

namespace RecordStore

variable {table : TableSchema} {type : ValueType} {element : ElementType} {value : Value}

namespace Codec

/-! ### Reading JSON -/

theorem reads_fieldsOfJson {declared : TypeSchema} {typeName : String}
    {members : List (String × Json)}
    (hread : ∀ name json, (name, json) ∈ members → ∀ field ∈ declared.fields,
      Reads (fun value => value.isNull = false → Fulfils table .read field.type value)
        (ofJson table field.type json))
    {record : Record} (hrecord : record.Filled table .read declared typeName) :
    Reads (Record.Filled table .read declared typeName)
      (fieldsOfJson table declared record members) := by
  induction members generalizing record with
  | nil => exact hrecord
  | cons entry rest ih =>
    obtain ⟨name, json⟩ := entry
    rw [fieldsOfJson]
    cases hfield : declared.field? name with
    | none => exact .error _
    | some field =>
      refine (hread name json List.mem_cons_self field (List.mem_of_find?_eq_some hfield)).bind
        fun value hvalue => ?_
      exact ih (fun name json hmem => hread name json (.tail _ hmem))
        (hrecord.set hfield fun hpresent => FieldSchema.takes_read (hvalue hpresent))

theorem reads_byteOfJson (json : Json) : Reads (fun _ => True) (byteOfJson json) := by
  unfold byteOfJson
  split
  · split
    · exact .ok trivial
    · exact .error _
  · exact .error _

/-- What is read of JSON is of its type, unless it is null. -/
theorem reads_ofJson (haccepted : table.Accepted) (hallowed : type.Allowed table) (json : Json) :
    Reads (fun value => value.isNull = false → Fulfils table .read type value)
      (ofJson table type json) := by
  induction json using Json.inductionOnParts generalizing type with
  | step json ih =>
    obtain ⟨kind, element⟩ := type
    obtain ⟨element, rfl⟩ := hallowed.element
    have hparts : ∀ part ∈ json.parts,
        Reads (Fulfils table .read (.scalar element)) (ofJson table (.scalar element) part) :=
      fun part hpart => (ih part hpart hallowed.scalar).mono fun _ => Fulfils.of_present
    cases json with
    | null => cases kind <;> cases element <;> exact .ok nofun
    | boolean value =>
      cases kind <;> cases element <;> first | exact .error _ | exact .ok fun _ => .boolean value
    | string text =>
      cases kind <;> cases element <;> first | exact .error _ | exact .ok fun _ => .string text
    | integer | float =>
      cases kind <;> cases element <;> first | exact .error _ | exact .ok fun _ => .number rfl _
    | array items =>
      have hitems : Reads
          (fun values => ∀ value ∈ values, Fulfils table .read (.scalar element) value)
          (items.mapM (ofJson table (.scalar element))) := .mapM hparts
      cases kind with
      | list =>
        rw [ofJson_list_eq]
        exact hitems.map fun values hvalues _ => .list hvalues
      | set =>
        rw [ofJson_set_eq]
        have hset := hallowed.set rfl element rfl
        exact hitems.map fun values hvalues _ =>
          .set fun value hmem => (hvalues value hmem).unchecked hset
      | map => exact .error _
      | scalar =>
        cases element with
        | binary =>
          have hbytes : Reads (fun _ => True) (items.mapM byteOfJson) :=
            (Reads.mapM fun item _ => reads_byteOfJson item).mono fun _ _ => trivial
          exact hbytes.bind fun bytes _ => .ok fun _ => .binary bytes
        | _ => exact .error _
    | object members =>
      cases kind with
      | list | set => exact .error _
      | map =>
        rw [ofJson_map_eq]
        exact (Reads.entries fun name member hmember =>
          hparts member (List.mem_map_of_mem hmember)).map fun entries hentries _ => .map hentries
      | scalar =>
        cases element with
        | object typeName =>
          obtain ⟨declared, hdeclared⟩ := hallowed.object typeName rfl
          have hmem := List.mem_of_find?_eq_some hdeclared
          have hfields : Reads (Record.Filled table .read declared typeName)
              (fieldsOfJson table declared (.empty typeName) members) :=
            reads_fieldsOfJson (fun name member hmember field hfield =>
              ih member (List.mem_map_of_mem hmember) (haccepted.allowed hmem hfield)) .empty
          refine (ofJson_object_eq typeName members).symm ▸ ?_
          rw [TableSchema.requireType_eq_ok_iff.mpr hdeclared, ok_bind]
          exact hfields.map fun record hrecord _ => hrecord.toValue hdeclared
        | _ => exact .error _

/-! ### Absent fields -/

theorem fulfils_absentValue {declared : TypeSchema} {field : FieldSchema}
    (haccepted : table.Accepted) (hdefaults : table.ReadsDefaults) (hdeclared : declared ∈ table.types)
    (hfield : field ∈ declared.fields) (hpresent : field.absentValue.isNull = false) :
    Fulfils table .read field.type field.absentValue := by
  have hallowed := haccepted.allowed hdeclared hfield
  unfold FieldSchema.absentValue at hpresent ⊢
  cases hdefault : field.default with
  | some value =>
    rw [hdefault] at hpresent
    obtain ⟨json, hjson⟩ := hdefaults declared hdeclared field hfield value hdefault
    have hreads := reads_ofJson haccepted hallowed json
    rw [hjson] at hreads
    exact hreads hpresent
  | none =>
    rw [hdefault] at hpresent
    obtain ⟨element, helement⟩ := hallowed.element
    rcases htype : field.type with ⟨kind, _⟩
    rw [htype] at helement hpresent
    cases helement
    cases kind with
    | scalar => cases hpresent
    | map => exact .map fun _ _ hmem => nomatch hmem
    | list => exact .list fun _ hmem => nomatch hmem
    | set => exact .set fun _ hmem => nomatch hmem

/-! ### Reading attributes -/

theorem reads_numberOfText (text : String) :
    Reads (fun number => ∃ wide : Number, number = wide.narrow element) (numberOfText text element) := by
  unfold numberOfText
  split
  · rename_i number _
    exact .ok ⟨number, rfl⟩
  · exact .error _

theorem reads_decompressJson (bytes : List UInt8) : Reads (fun _ => True) (decompressJson bytes) := by
  unfold decompressJson
  split
  · exact .error _
  · split
    · exact .error _
    · exact .ok trivial

theorem decode_cases (storage : Storage) (type : ValueType) (stored : Attribute) :
    (storage.compressed = true ∧ ∃ bytes, stored = .binary bytes ∧
      decode table storage type stored = (decompressJson bytes >>= ofJson table type)) ∨
    (storage.byId.isSome = true ∧ ∃ entries, stored = .map entries ∧
      decode table storage type stored = (do
        let entries ← decodeEntries table (← type.requireElement) entries
        return .list ((entries.map Prod.snd).mergeSort idPrecedes))) ∨
    decode table storage type stored = decode table .plain type stored := by
  obtain ⟨compressed, _ | name⟩ := storage
  · cases compressed with
    | false => exact .inr (.inr rfl)
    | true =>
      cases stored with
      | binary bytes => exact .inl ⟨rfl, bytes, rfl, rfl⟩
      | _ => exact .inr (.inr rfl)
  · cases stored with
    | map entries => cases compressed <;> exact .inr (.inl ⟨rfl, entries, rfl, rfl⟩)
    | binary bytes =>
      cases compressed with
      | false => exact .inr (.inr rfl)
      | true => exact .inl ⟨rfl, bytes, rfl, rfl⟩
    | _ => cases compressed <;> exact .inr (.inr rfl)

theorem reads_readMembers {declared : TypeSchema} {typeName : String}
    {held : List (String × (FieldSchema → Except Error Value))} {fields : List FieldSchema}
    (hfields : ∀ field ∈ fields, declared.field? field.name = some field)
    (hread : ∀ field ∈ fields,
      Reads (fun value => value.isNull = false → Fulfils table .read field.type value)
        (readMember held field))
    {record : Record} (hrecord : record.Filled table .read declared typeName) :
    Reads (Record.Filled table .read declared typeName) (readMembers held record fields) := by
  induction fields generalizing record with
  | nil => exact hrecord
  | cons field rest ih =>
    rw [readMembers_cons]
    refine (hread field List.mem_cons_self).bind fun value hvalue => ?_
    refine ih (fun other hmem => hfields other (.tail _ hmem))
      (fun other hmem => hread other (.tail _ hmem)) (hrecord.set
        (hfields field List.mem_cons_self) fun hpresent => FieldSchema.takes_read (hvalue hpresent))

theorem reads_object {declared : TypeSchema} {typeName : String} {item : Item}
    (haccepted : table.Accepted) (hdefaults : table.ReadsDefaults)
    (hdeclared : table.type? typeName = some declared)
    (hread : ∀ field ∈ declared.fields, ∀ stored, Item.get? item field.wireName = some stored →
      Reads (fun value => value.isNull = false → Fulfils table .read field.type value)
        (decode table field.storage field.type stored)) :
    Reads (Fulfils table .read (.scalar (.object typeName)))
      (decode table .plain (.scalar (.object typeName)) (.map item)) := by
  have hmem := List.mem_of_find?_eq_some hdeclared
  have hnames := (haccepted.fields declared hmem).names
  rw [decode_object_eq hdeclared]
  refine (reads_readMembers (fun field hfield => (TypeSchema.field?_eq_some_iff hnames).mpr
    ⟨hfield, rfl⟩) (fun field hfield => ?_) .empty).map fun record hrecord =>
      hrecord.toValue hdeclared
  have habsent : Reads (fun value => value.isNull = false → Fulfils table .read field.type value)
      (.ok field.absentValue) := fulfils_absentValue haccepted hdefaults hmem hfield
  rw [readMember, find?_decodeFields]
  cases hstored : Item.get? item field.wireName with
  | none => exact habsent
  | some stored =>
    cases hpersist : field.persist with
    | false => exact habsent
    | true => exact hread field hfield stored hstored

attribute [local irreducible] numberOfText in
theorem reads_number (kind : Kind) (text : String) :
    Reads (Fulfils table .read ⟨kind, some element⟩)
      (decode table .plain ⟨kind, some element⟩ (.number text)) := by
  cases kind with
  | scalar =>
    by_cases hnumeric : element.isNumeric = true
    · have hdecode := @decode_number table element text hnumeric
      change Reads _ (decode table .plain (.scalar element) (.number text))
      rw [hdecode]
      refine (reads_numberOfText text).bind fun number hnumber => ?_
      obtain ⟨wide, rfl⟩ := hnumber
      exact .ok (.number hnumeric wide)
    · cases element <;> first | exact absurd rfl hnumeric | exact .error _
  | _ => exact .error _

/-- Native sets are read whatever their elements are declared to be. -/
theorem reads_numberSet (kind : Kind) (texts : List String) :
    Reads (Fulfils table .read ⟨kind, some element⟩)
      (decode table .plain ⟨kind, some element⟩ (.numberSet texts)) := by
  cases kind with
  | set =>
    rw [decode_numberSet_eq]
    refine (Reads.mapM fun text _ => reads_numberOfText text).map fun numbers hnumbers =>
      .set (List.forall_mem_map.mpr fun number hmem => ?_)
    obtain ⟨wide, rfl⟩ := hnumbers number hmem
    exact .number wide
  | scalar => cases element <;> exact .error _
  | _ => exact .error _

theorem reads_items {kind : Kind} {items : List Attribute}
    (hallowed : ValueType.Allowed table ⟨kind, some element⟩)
    (hitems : ∀ item ∈ items, Reads (Fulfils table .read (.scalar element))
      (decode table .plain (.scalar element) item)) :
    Reads (Fulfils table .read ⟨kind, some element⟩)
      (decode table .plain ⟨kind, some element⟩ (.list items)) := by
  have hvalues : Reads (fun values => ∀ value ∈ values, Fulfils table .read (.scalar element) value)
      (items.mapM (decode table .plain (.scalar element))) := .mapM hitems
  cases kind with
  | list =>
    rw [decode_list_eq]
    exact hvalues.map fun values hvalues => .list hvalues
  | set =>
    rw [decode_set_eq]
    have hset := hallowed.set rfl element rfl
    exact hvalues.map fun values hvalues => .set fun value hmem => (hvalues value hmem).unchecked hset
  | map => exact .error _
  | scalar => cases element <;> exact .error _

theorem reads_entries {kind : Kind} {entries : Item} (haccepted : table.Accepted)
    (hdefaults : table.ReadsDefaults) (hallowed : ValueType.Allowed table ⟨kind, some element⟩)
    (hentries : ∀ name part, (name, part) ∈ entries →
      Reads (Fulfils table .read (.scalar element)) (decode table .plain (.scalar element) part))
    (hfields : ∀ name part, (name, part) ∈ entries → ∀ declared ∈ table.types,
      ∀ field ∈ declared.fields,
      Reads (fun value => value.isNull = false → Fulfils table .read field.type value)
        (decode table field.storage field.type part)) :
    Reads (Fulfils table .read ⟨kind, some element⟩)
      (decode table .plain ⟨kind, some element⟩ (.map entries)) := by
  cases kind with
  | list | set => exact .error _
  | map =>
    rw [decode_map_eq]
    exact (Reads.entries hentries).map fun values hvalues => .map hvalues
  | scalar =>
    cases element with
    | object typeName =>
      obtain ⟨declared, hdeclared⟩ := hallowed.object typeName rfl
      have hmem := List.mem_of_find?_eq_some hdeclared
      exact reads_object haccepted hdefaults hdeclared fun field hfield part hpart =>
        hfields _ part (Entries.mem_of_find? hpart) declared hmem field hfield
    | _ => exact .error _

/-- What is stored plainly reads as a value of its type, when what is stored within it does. -/
theorem reads_plain {stored : Attribute} (haccepted : table.Accepted)
    (hdefaults : table.ReadsDefaults) (hallowed : type.Allowed table)
    (hparts : ∀ part ∈ stored.parts, ∀ element, (ValueType.scalar element).Allowed table →
      Reads (Fulfils table .read (.scalar element)) (decode table .plain (.scalar element) part))
    (hfields : ∀ part ∈ stored.parts, ∀ declared ∈ table.types, ∀ field ∈ declared.fields,
      Reads (fun value => value.isNull = false → Fulfils table .read field.type value)
        (decode table field.storage field.type part)) :
    Reads (Fulfils table .read type) (decode table .plain type stored) := by
  obtain ⟨kind, element⟩ := type
  obtain ⟨element, rfl⟩ := hallowed.element
  cases stored with
  | null =>
    cases kind with
    | scalar => cases element <;> exact .ok (.null _)
    | list => exact .ok (.list fun _ hmem => nomatch hmem)
    | map => exact .ok (.map fun _ _ hmem => nomatch hmem)
    | set => exact .ok (.set fun _ hmem => nomatch hmem)
  | string text =>
    cases kind <;> cases element <;> first | exact .error _ | exact .ok (.string text)
  | boolean value =>
    cases kind <;> cases element <;> first | exact .error _ | exact .ok (.boolean value)
  | binary bytes =>
    cases kind <;> cases element <;> first | exact .error _ | exact .ok (.binary bytes)
  | number text => exact reads_number kind text
  | stringSet members =>
    cases kind with
    | set => exact .ok (.set (List.forall_mem_map.mpr fun text _ => .string text))
    | _ => cases element <;> exact .error _
  | binarySet members =>
    cases kind with
    | set => exact .ok (.set (List.forall_mem_map.mpr fun bytes _ => .binary bytes))
    | _ => cases element <;> exact .error _
  | numberSet texts => exact reads_numberSet kind texts
  | list items =>
    exact reads_items hallowed fun item hmem => hparts item hmem element hallowed.scalar
  | map entries =>
    exact reads_entries haccepted hdefaults hallowed
      (fun name part hmem => hparts part (List.mem_map_of_mem hmem) element hallowed.scalar)
      fun name part hmem => hfields part (List.mem_map_of_mem hmem)

/-- What is read of an attribute is of the declared type. Only a field that is stored compressed can
read as null where its type is a collection. -/
theorem reads_decode {storage : Storage} (haccepted : table.Accepted)
    (hdefaults : table.ReadsDefaults) (hallowed : type.Allowed table)
    (hbyId : storage.byId.isSome = true → type.kind = .list) (stored : Attribute) :
    Reads (fun value => storage = .plain ∨ value.isNull = false → Fulfils table .read type value)
      (decode table storage type stored) := by
  induction stored using Attribute.inductionOnParts generalizing storage type with
  | step stored ih =>
    have hparts : ∀ part ∈ stored.parts, ∀ element, (ValueType.scalar element).Allowed table →
        Reads (Fulfils table .read (.scalar element))
          (decode table .plain (.scalar element) part) := by
      intro part hpart element hscalar
      have hplain := @ih part hpart _ .plain hscalar nofun
      exact hplain.mono fun value hvalue => hvalue (.inl rfl)
    have hfields : ∀ part ∈ stored.parts, ∀ declared ∈ table.types, ∀ field ∈ declared.fields,
        Reads (fun value => value.isNull = false → Fulfils table .read field.type value)
          (decode table field.storage field.type part) := by
      intro part hpart declared hdeclared field hfield
      have hstorable := (haccepted.fields declared hdeclared).storable field hfield
      have hlist := fun hbyId => (hstorable.rekeyed (FieldSchema.rekeyById_of_byId hbyId)).1
      exact (ih part hpart (haccepted.allowed hdeclared hfield) hlist).mono
        fun value hvalue hpresent => hvalue (.inr hpresent)
    rcases decode_cases storage type stored with ⟨hcompressed, bytes, rfl, heq⟩ |
      ⟨hstored, entries, rfl, heq⟩ | heq
    · rw [heq]
      refine (reads_decompressJson bytes).bind fun json _ => ?_
      refine (reads_ofJson haccepted hallowed json).mono fun value hvalue hplain => hvalue ?_
      refine hplain.resolve_left ?_
      rintro rfl
      cases hcompressed
    · rw [heq]
      obtain ⟨kind, element⟩ := type
      obtain ⟨element, rfl⟩ := hallowed.element
      cases hbyId hstored
      have hentries : Reads (fun values : List (String × Value) => ∀ name value,
          (name, value) ∈ values → Fulfils table .read (.scalar element) value)
          (decodeEntries table element entries) := by
        rw [decodeEntries_eq_mapM]
        exact .entries fun name part hmem =>
          hparts part (List.mem_map_of_mem hmem) element hallowed.scalar
      refine hentries.bind fun values hvalues => .ok fun _ => .list fun item hmem => ?_
      obtain ⟨⟨name, value⟩, hvalue, rfl⟩ := List.mem_map.mp (List.mem_mergeSort.mp hmem)
      exact hvalues name value hvalue
    · rw [heq]
      exact (reads_plain haccepted hdefaults hallowed hparts hfields).mono fun _ hvalue _ => hvalue

/-- An accepted table reads a value of the declared type at every depth, or a codec error. -/
theorem reads_of_resolve {description : TableDescription} (hresolve : description.resolve = .ok table)
    (hallowed : type.Allowed table) (stored : Attribute) :
    Reads (Fulfils table .read type) (decode table .plain type stored) :=
  (reads_decode (TableDescription.accepted_of_resolve hresolve)
    (TableDescription.readsDefaults_of_resolve hresolve) hallowed (fun hbyId => by cases hbyId)
    stored).mono fun _ hvalue => hvalue (.inl rfl)

/-! ### Shapes -/

/-- Whether an attribute has a shape in which values of a type are stored. -/
def mayStore (kind : Kind) (element : ElementType) : Attribute → Bool
  | .null _ => true
  | .list _ => kind = .list || kind = .set
  | .map _ => kind = .map || (kind = .scalar && element.isObject)
  | .stringSet _ | .numberSet _ | .binarySet _ => kind = .set
  | .string _ => kind = .scalar && element = .string
  | .boolean _ => kind = .scalar && element = .boolean
  | .binary _ => kind = .scalar && element = .binary
  | .number _ => kind = .scalar && element.isNumeric

/-- An attribute of another shape is refused, and the error shows the type and the attribute. -/
theorem decode_eq_error {kind : Kind} {stored : Attribute}
    (hshape : mayStore kind element stored = false) :
    decode table .plain ⟨kind, some element⟩ stored =
      .error (.codec (.unexpectedAttribute (ValueType.text ⟨kind, some element⟩) stored)) := by
  cases stored with
  | null => cases hshape
  | number text =>
    -- Where the shape is right, what is read of the text is left alone.
    cases kind with
    | scalar => cases element <;> first | (cases hshape; done) | rfl
    | _ => rfl
  | list | stringSet | numberSet | binarySet =>
    cases kind with
    | scalar => cases element <;> rfl
    | _ => first | rfl | cases hshape
  | map | string | boolean | binary => cases kind <;> cases element <;> first | rfl | cases hshape

end Codec

end RecordStore
