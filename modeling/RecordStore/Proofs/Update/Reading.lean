import RecordStore.Proofs.Codec.Projection
import RecordStore.Proofs.Update.Empty
import RecordStore.Proofs.Update.Lasting
import RecordStore.Proofs.Update.Relative

/-!
# Reading what an update leaves

What the change of a field leaves stored is read as the view shows the field, when the change lasts.
Fields that do not change read as before, so that an object reads as its view does, at every depth.
-/

namespace RecordStore

open Expression (Clauses)

open Expression.Clauses (leaves_of_nil leaves_single)

variable {table : TableSchema} {object : TypeSchema} {record : Record}

/-! ### Records that were read -/

namespace Codec

theorem readMember_congr {left right : Item} {field : FieldSchema}
    (hsame : field.persist = true → Item.get? left field.wireName = Item.get? right field.wireName) :
    readMember (decodeFields table left) field = readMember (decodeFields table right) field := by
  cases hpersist : field.persist with
  | true => rw [readMember, readMember, find?_decodeFields, find?_decodeFields, hsame hpersist]
  | false =>
    have hnotRead (item : Item) :
        readMember (decodeFields table item) field = .ok field.absentValue := by
      rw [readMember, hpersist]
      split <;> rfl
    rw [hnotRead, hnotRead]

/-- Reading fills in what is read of each field. -/
theorem exists_fill_of_readMembers {held : List (String × (FieldSchema → Except Error Value))}
    {start : Record} {declared : List FieldSchema}
    (hread : readMembers held start declared = .ok record) :
    ∃ member, (∀ field ∈ declared, readMember held field = .ok (member field)) ∧
      record = start.fill member declared := by
  have hmembers : ∀ field ∈ declared,
      readMember held field = .ok ((readMember held field).toOption.getD .null) := by
    intro field hmem
    obtain ⟨value, hvalue⟩ := exists_readMember hread field hmem
    rw [hvalue]
    rfl
  refine ⟨fun field => (readMember held field).toOption.getD .null, hmembers, ?_⟩
  exact Except.ok.inj (hread.symm.trans (readMembers_eq hmembers))

end Codec

/-- The record holds what is read of each declared field of an item, and nothing else. -/
structure Record.ReadsFrom (table : TableSchema) (object : TypeSchema) (item : Item)
    (record : Record) : Prop where
  names : (Entries.names record.fields).Nodup
  undeclared : ∀ name, (∀ field ∈ object.fields, field.name ≠ name) → record.get? name = none
  fields : ∀ field ∈ object.fields, ∃ value,
    Codec.readMember (Codec.decodeFields table item) field = .ok value ∧
      record.get? field.name = if value.isNull then none else some value

namespace Record

theorem nodup_fill {member : FieldSchema → Value} {declared : List FieldSchema} {record : Record}
    (hnames : (Entries.names record.fields).Nodup) :
    (Entries.names (record.fill member declared).fields).Nodup := by
  induction declared generalizing record with
  | nil => exact hnames
  | cons field rest ih => exact ih (Record.nodup_set hnames field.name (member field))

theorem typeName_fill {member : FieldSchema → Value} {declared : List FieldSchema}
    {record : Record} : (record.fill member declared).typeName = record.typeName := by
  induction declared generalizing record with
  | nil => rfl
  | cons field rest ih => exact ih

theorem readsFrom_of_readMembers {item : Item} {typeName : String}
    (hnames : (object.fields.map FieldSchema.name).Nodup)
    (hread : Codec.readMembers (Codec.decodeFields table item) (.empty typeName) object.fields =
      .ok record) :
    record.ReadsFrom table object item ∧ record.typeName = typeName ∧ record.revision = 0 := by
  obtain ⟨member, hmembers, rfl⟩ := Codec.exists_fill_of_readMembers hread
  refine ⟨⟨nodup_fill List.nodup_nil, fun name hother => ?_, fun field hfield => ?_⟩,
    typeName_fill, Record.revision_fill⟩
  · rw [Record.get?_fill_of_ne hother]
    rfl
  · exact ⟨member field, hmembers field hfield, Record.get?_fill hnames hfield⟩

theorem ReadsFrom.of_fields {item : Item} {other : Record}
    (hreads : record.ReadsFrom table object item) (hsame : other.fields = record.fields) : other.ReadsFrom table object item := by
  obtain ⟨names, undeclared, fields⟩ := hreads
  have hget (name : String) : other.get? name = record.get? name := by
    rw [get?, get?, hsame]
  exact ⟨hsame ▸ names, fun name hother => (hget name).trans (undeclared name hother),
    fun field hfield => (hget field.name).symm ▸ fields field hfield⟩

theorem ReadsFrom.isNull {item : Item} (hreads : record.ReadsFrom table object item) {name : String}
    {value : Value} (hheld : record.get? name = some value) : value.isNull = false := by
  by_cases hdeclared : ∃ field ∈ object.fields, field.name = name
  · obtain ⟨field, hfield, rfl⟩ := hdeclared
    obtain ⟨read, _, hget⟩ := hreads.fields field hfield
    rw [hheld] at hget
    split at hget
    · cases hget
    · rename_i hpresent
      cases hget
      rwa [Bool.not_eq_true] at hpresent
  · have hnone := hreads.undeclared name fun field hfield hname => hdeclared ⟨field, hfield, hname⟩
    rw [hnone] at hheld
    cases hheld

theorem ReadsFrom.readMember {item : Item} {field : FieldSchema}
    (hreads : record.ReadsFrom table object item) (hfield : field ∈ object.fields) :
    Codec.readMember (Codec.decodeFields table item) field =
      .ok ((record.get? field.name).getD .null) := by
  obtain ⟨value, hvalue, hget⟩ := hreads.fields field hfield
  rw [hvalue, hget]
  split
  · cases value with
    | null => rfl
    | _ => contradiction
  · rfl

/-- Fields that are read alike the values that another record shows make up alike records. -/
theorem ReadsFrom.alikeEntries {item : Item} {viewed : Record}
    (hreads : record.ReadsFrom table object item) (hnames : (Entries.names viewed.fields).Nodup)
    (hundeclared : ∀ name, (∀ field ∈ object.fields, field.name ≠ name) → viewed.get? name = none)
    (hpresent : ∀ name value, viewed.get? name = some value → value.isNull = false)
    (hfields : ∀ field ∈ object.fields, ∃ value,
      Codec.readMember (Codec.decodeFields table item) field = .ok value ∧
        value.Alike ((viewed.get? field.name).getD .null)) :
    Value.AlikeEntries record.fields viewed.fields := by
  refine (Value.alikeEntries_iff hreads.names hnames).mpr fun name => ?_
  change (record.get? name).map Value.canonical = (viewed.get? name).map Value.canonical
  by_cases hdeclared : ∃ field ∈ object.fields, field.name = name
  · obtain ⟨field, hfield, rfl⟩ := hdeclared
    obtain ⟨value, hvalue, halike⟩ := hfields field hfield
    obtain ⟨read, hread, hget⟩ := hreads.fields field hfield
    cases hvalue.symm.trans hread
    have hnull := halike.isNull
    rw [hget]
    cases hshown : viewed.get? field.name with
    | none =>
      rw [hshown] at hnull
      rw [if_pos (show value.isNull = true from hnull)]
    | some shown =>
      rw [hshown] at hnull halike
      rw [if_neg (by rw [hnull]; simpa using hpresent _ _ hshown)]
      exact congrArg some halike
  · have hother : ∀ field ∈ object.fields, field.name ≠ name :=
      fun field hfield hname => hdeclared ⟨field, hfield, hname⟩
    rw [hreads.undeclared name hother, hundeclared name hother]

end Record

/-! ### Fields that are read -/

/-- What is read of an absent attribute of a kind for which no default is declared. -/
def Kind.absentValue : Kind → Value
  | .scalar => .null
  | .map => .map []
  | .list => .list []
  | .set => .set []

/-- What a persisted field reads of what is stored of it, its absent value of nothing. -/
def FieldSchema.Reads (table : TableSchema) (field : FieldSchema) (stored : Option Attribute)
    (value : Value) : Prop :=
  match stored with
  | none => field.absentValue = value
  | some stored => Codec.decodeField table field stored = .ok value

/-- What is stored of a field is read as a view shows the value, if the texts of its compressed parts
survive. -/
def FieldSchema.ReadsAs (table : TableSchema) (field : FieldSchema) (stored : Option Attribute)
    (value : Value) : Prop :=
  (value.isNull = false → ∀ json, Compresses table field.storage value json → json.Survives) →
    ∃ read, field.Reads table stored read ∧ read.Alike (field.settled value)

namespace FieldSchema

variable {field : FieldSchema} {value : Value} {held stored : Option Attribute}

theorem readMember_eq_ok_iff {item : Item} (hpersist : field.persist = true) :
    Codec.readMember (Codec.decodeFields table item) field = .ok value ↔
      field.Reads table (Item.get? item field.wireName) value := by
  rw [Codec.readMember, Codec.find?_decodeFields, hpersist]
  cases Item.get? item field.wireName with
  | none => exact ⟨Except.ok.inj, congrArg Except.ok⟩
  | some stored => rfl

theorem Lasting.storage (hfield : field.Lasting) : field.storage = ⟨field.compress, none⟩ := by
  rw [FieldSchema.storage, hfield.inPlace]
  rfl

theorem Lasting.storage_of_scalar (hfield : field.Lasting) (hstorable : field.Storable)
    (hscalar : field.type.kind = .scalar) : field.storage = .plain := by
  rw [hfield.storage]
  cases hcompress : field.compress with
  | false => rfl
  | true => exact absurd hscalar (hstorable.compressed hcompress)

theorem Lasting.storage_of_writesRelative (hfield : field.Lasting)
    (hrelative : field.writesRelative = true) : field.compress = false ∧ field.storage = .plain := by
  simp only [writesRelative, Bool.and_eq_true, Bool.not_eq_true'] at hrelative
  exact ⟨hrelative.1.2, by rw [hfield.storage, hrelative.1.2]; rfl⟩

theorem Lasting.default_of_writesRelative (hfield : field.Lasting)
    (hrelative : field.writesRelative = true) : field.default = none := by
  refine hfield.default.resolve_right fun hwhole => ?_
  cases hrelative.symm.trans hwhole.1

theorem Lasting.default_of_object (hfield : field.Lasting) {typeName : String}
    (htype : field.type = .scalar (.object typeName)) : field.default = none :=
  hfield.default.resolve_right fun hwhole => hwhole.2 typeName htype

theorem absentValue_of_default (hdefault : field.default = none) :
    field.absentValue = field.type.kind.absentValue := by
  unfold FieldSchema.absentValue
  rw [hdefault]
  cases field.type.kind <;> rfl

theorem Lasting.settled_of_isNull (hfield : field.Lasting) (hnull : value.isNull = true) :
    field.settled value = field.absentValue := by
  rw [settled, hnull, hfield.persist]
  rfl

/-- A value that survives is read again from where it is stored, as its view shows it. -/
theorem Stores.readsAs (hfield : field.Lasting)
    (hvalue : value.isNull = true ∨ field.Preserves table value)
    (hstores : field.Stores table value stored) : field.ReadsAs table stored value := by
  intro hsurvives
  unfold Stores at hstores
  split at hstores
  · rename_i hnull
    rw [hstores, hfield.settled_of_isNull hnull]
    exact ⟨_, rfl, .refl _⟩
  · rename_i hpresent
    obtain ⟨encoded, hencode, rfl⟩ := hstores
    have hpreserved := hvalue.resolve_left hpresent
    rw [Bool.not_eq_true] at hpresent
    replace hsurvives := hsurvives hpresent
    rw [field.settled_of_present hpresent]
    rw [Preserves] at hpreserved
    rw [Codec.encodeField, hfield.storage] at hencode
    rw [hfield.storage] at hsurvives
    obtain ⟨read, hreread, halike⟩ := hpreserved
    refine ⟨read, ?_, halike⟩
    rw [Reads, Codec.decodeField, hfield.storage]
    rw [Codec.reread] at hreread
    split at hreread
    · rename_i hcompress
      rw [hcompress] at hencode hsurvives ⊢
      rw [Codec.encode_compressed_eq] at hencode
      obtain ⟨json, hwrite, rfl⟩ := map_eq_ok_iff.mp hencode
      rw [hwrite, ok_bind] at hreread
      change (do Codec.ofJson table field.type (← Codec.decompressJson _)) = _
      rw [Codec.decompressJson_compress (hsurvives json (.whole rfl hwrite)), ok_bind]
      exact hreread
    · rename_i hplain
      rw [Bool.not_eq_true] at hplain
      rw [hplain] at hencode ⊢
      change Codec.encode table .plain field.type value = .ok encoded at hencode
      rw [hencode, ok_bind] at hreread
      exact hreread

end FieldSchema

theorem Value.getD_of_isNull (value : Value) :
    ((if value.isNull then none else some value).getD .null : Value) = value := by
  cases value <;> rfl

/-! ### Changes of fields -/

theorem CollectionDelta.clears_of_isEmpty (delta : CollectionDelta) (hempty : delta.isEmpty = true) :
    delta.clears = false := by
  cases delta with
  | map delta => rw [MapDelta.eq_none_of_isEmpty hempty]; rfl
  | set delta => rw [SetDelta.eq_none_of_isEmpty hempty]; rfl
  | list delta => rw [ListDelta.eq_none_of_isEmpty hempty]; rfl

/-- What is stored of a field is regular and is read as a record shows the field. -/
structure FieldSchema.Shown (table : TableSchema) (field : FieldSchema) (held : Option Attribute)
    (shown : Option Value) : Prop where
  reads : field.Reads table held (shown.getD .null)
  regular : field.storage = .plain → field.IsRegular table held
  fulfils : ∀ value, shown = some value →
    value.isNull = false ∧ Fulfils table .read field.type value

/-! ### Objects that are shown -/

/-- What is stored of an object is regular and is read as a record. -/
structure Record.Shown (table : TableSchema) (object : TypeSchema) (entries : Item) (base : Record) :
    Prop where
  declared : table.type? base.typeName = some object
  shaped : base.IsShaped table
  reads : base.ReadsFrom table object entries
  regular : (Attribute.map entries).IsRegular table (.scalar (.object base.typeName))

namespace Record.Shown

variable {field : FieldSchema} {entries later : Item}

theorem fieldsDistinct (hshown : record.Shown table object entries) (haccepted : table.Accepted) :
    FieldsDistinct table.counters object.fields :=
  haccepted.fields object (List.mem_of_find?_eq_some hshown.declared)

theorem field? (hshown : record.Shown table object entries) (haccepted : table.Accepted)
    (hfield : field ∈ object.fields) : object.field? field.name = some field :=
  (TypeSchema.field?_eq_some_iff (hshown.fieldsDistinct haccepted).names).mpr ⟨hfield, rfl⟩

theorem fieldOf? (hshown : record.Shown table object entries) (haccepted : table.Accepted)
    (hfield : field ∈ object.fields) : table.fieldOf? record.typeName field.name = some field := by
  rw [TableSchema.fieldOf?, hshown.declared]
  exact hshown.field? haccepted hfield

/-- Each field of the object is shown. -/
theorem ofField (hshown : record.Shown table object entries) (haccepted : table.Accepted)
    (hfield : field ∈ object.fields) (hpersist : field.persist = true) :
    field.Shown table (Item.get? entries field.wireName) (record.get? field.name) := by
  refine ⟨(FieldSchema.readMember_eq_ok_iff hpersist).mp (hshown.reads.readMember hfield),
    fun hplain value hvalue => ?_, fun value hvalue => ?_⟩
  · have hregular := hshown.regular
    cases hregular with
    | intro _ fields =>
      exact fields _ _ _ _ _ rfl rfl hshown.declared hfield hpersist hplain hvalue
  · exact hshown.shaped _ _ _ hvalue (hshown.fieldOf? haccepted hfield)

/-- A field is read as before where it is left as it was. -/
theorem readMember_of_kept (hshown : record.Shown table object entries)
    (hfield : field ∈ object.fields) (hkept : field.persist = true →
      Item.get? later field.wireName = Item.get? entries field.wireName) :
    Codec.readMember (Codec.decodeFields table later) field =
      .ok ((record.get? field.name).getD .null) := by
  rw [← hshown.reads.readMember hfield, Codec.readMember_congr hkept]

end Record.Shown

/-- An object that is shown was read from a map. -/
theorem FieldSchema.Shown.exists_entries {field : FieldSchema} {held : Option Attribute}
    {typeName : String} (haccepted : table.Accepted)
    (hshown : field.Shown table held (some record.toValue)) (hfield : field.Lasting)
    (hplain : field.storage = .plain) (htype : field.type = .scalar (.object typeName)) :
    typeName = record.typeName ∧ ∃ object entries, held = some (.map entries) ∧
      record.Shown table object entries ∧ record.revision = 0 := by
  obtain ⟨-, hfulfils⟩ := hshown.fulfils _ rfl
  have hreads : field.Reads table held record.toValue := hshown.reads
  have hshaped : record.IsShaped table := Record.isShaped_of_fulfils (htype ▸ hfulfils)
  obtain ⟨recordType, fields, revision⟩ := record
  rw [htype] at hfulfils
  cases hfulfils with
  | object declared =>
    refine ⟨rfl, ?_⟩
    cases held with
    | none =>
      have hdefault := hfield.default_of_object htype
      rw [FieldSchema.Reads, FieldSchema.absentValue_of_default hdefault, htype] at hreads
      cases hreads
    | some stored =>
      rw [FieldSchema.Reads, Codec.decodeField, hplain, htype] at hreads
      cases stored with
      | map entries =>
        rw [Codec.decode_object_eq declared] at hreads
        obtain ⟨⟨_, _, _⟩, hread, hsame⟩ := map_eq_ok_iff.mp hreads
        cases hsame
        have hfields := haccepted.fields _ (List.mem_of_find?_eq_some declared)
        exact ⟨_, entries, rfl, ⟨declared, hshaped,
          (Record.readsFrom_of_readMembers hfields.names hread).1,
          htype ▸ hshown.regular hplain _ rfl⟩, rfl⟩
      | _ => cases hreads

/-- Where a whole number is declared, a number is shown or nothing is. -/
theorem FieldSchema.Shown.isNumber {field : FieldSchema} {held : Option Attribute}
    {shown : Option Value} {element : ElementType} (hshown : field.Shown table held shown)
    (hwhole : element.IsWhole) (htype : field.type = .scalar element) :
    (shown.getD .null).IsNumber := by
  cases shown with
  | none => exact trivial
  | some value =>
    obtain ⟨-, hfulfils⟩ := hshown.fulfils value rfl
    rw [htype] at hfulfils
    rcases hwhole with rfl | rfl <;> cases hfulfils <;> exact trivial

/-- A collection whose clauses are written can be merged. -/
theorem CollectionDelta.exists_merge_of_clauses {delta : CollectionDelta} {path : List String}
    {kind : Kind} {element : ElementType} {base : Value} {part : Clauses}
    (hchanges : delta.isEmpty = false)
    (hpart : delta.clauses table path ⟨kind, some element⟩ base = .ok part) :
    ∃ merged, delta.merge base element = .ok merged := by
  rw [clauses, hchanges, if_neg Bool.false_ne_true] at hpart
  obtain ⟨_, helement, hpart⟩ := bind_eq_ok_iff.mp hpart
  cases helement
  obtain ⟨merged, hmerge, _⟩ := bind_eq_ok_iff.mp hpart
  exact ⟨merged, hmerge⟩

namespace FieldMutation

/-- Whatever is stored of a field, the view of the change shows a value, and what its clauses leave is
read as that value. -/
def ReadsAsViewed (table : TableSchema) (mutation : FieldMutation) : Prop :=
  ∀ {field : FieldSchema} {path : List String} {shown : Option Value} {part : Clauses}
    {held stored : Option Attribute}, mutation.isEmpty = false → field.Storable → field.Lasting →
    mutation.Fits table field.type shown → mutation.Lasts table field shown →
    field.Shown table held shown →
    mutation.clauses table field path (shown.getD .null) = .ok part → part.Leaves path held stored →
    ∃ latest, mutation.latest table field (shown.getD .null) = .ok latest ∧
      field.ReadsAs table stored latest

variable {field : FieldSchema} {path : List String} {shown : Option Value} {part : Clauses}
  {held stored : Option Attribute}

/-- An amount is added to the number that is shown, where the field is written relative to it. -/
theorem readsAsViewed_amount {element : ElementType} {amount : Number}
    (hwhole : element.IsWhole) (htype : field.type = .scalar element) (hfield : field.Lasting)
    (hrelative : field.writesRelative = true) (hshown : field.Shown table held shown)
    (hpart : increaseClauses path amount element = .ok part)
    (hleaves : part.Leaves path held stored) :
    ∃ latest, addAmount (shown.getD .null) amount element = .ok latest ∧
      field.ReadsAs table stored latest := by
  have hplain := (hfield.storage_of_writesRelative hrelative).2
  have hdefault := hfield.default_of_writesRelative hrelative
  obtain ⟨sum, hsum⟩ := exists_addAmount (hshown.isNumber hwhole htype) amount element
  refine ⟨_, hsum, fun _ => ?_⟩
  have hreads : Codec.ReadsScalar table element held (shown.getD .null) := by
    have hreads := hshown.reads
    cases held with
    | none =>
      rw [Codec.ReadsScalar, ← hreads, FieldSchema.absentValue_of_default hdefault, htype]
      rfl
    | some value => rwa [FieldSchema.Reads, Codec.decodeField, hplain, htype] at hreads
  have hcounts : ∀ value, held = some value → element.Counts value := by
    intro value hvalue
    have hcounts := (hshown.regular hplain value hvalue).counts
    rw [htype] at hcounts
    exact hcounts element rfl
  obtain ⟨after, rfl, hread⟩ := decode_increaseClauses hwhole hpart hleaves hcounts hreads hsum
  refine ⟨_, ?_, .refl _⟩
  rw [FieldSchema.Reads, Codec.decodeField, hplain, htype]
  exact hread

theorem readsAsViewed_scalar (haccepted : table.Accepted) (delta : ScalarDelta) :
    (FieldMutation.scalar delta).ReadsAsViewed table := by
  intro field path shown part held stored hchanges hstorable hfield _ hlasts hshown hpart hleaves
  have hwhole : (FieldMutation.scalar delta).WritesWhole field (shown.getD .null) →
      (∀ latest, (FieldMutation.scalar delta).latest table field (shown.getD .null) = .ok latest →
        latest.isNull = true ∨ field.Preserves table latest) →
      ∃ latest, (FieldMutation.scalar delta).latest table field (shown.getD .null) = .ok latest ∧
        field.ReadsAs table stored latest := by
    intro hwhole hvalue
    obtain ⟨latest, hlatest, hstores⟩ := stores_latest hwhole hchanges hstorable hpart hleaves
    exact ⟨latest, hlatest, hstores.readsAs hfield (hvalue latest hlatest)⟩
  obtain ⟨element, helement⟩ := hstorable.element
  have hlatest : (FieldMutation.scalar delta).latest table field (shown.getD .null) =
      delta.merge (shown.getD .null) element := by
    rw [latest, ValueType.requireElement_eq_ok_iff.mpr helement, ok_bind]
  rw [hlatest] at hwhole ⊢
  cases hlasts with
  | remove =>
    refine hwhole (.inr rfl) ?_
    rintro _ ⟨⟩
    exact .inl rfl
  | set _ hpreserved =>
    refine hwhole (.inr rfl) ?_
    rintro _ ⟨⟩
    exact .inr hpreserved
  | @amount declared amount htype hwholeNumber =>
    cases helement.symm.trans (congrArg ValueType.element htype)
    cases hrelative : field.writesRelative with
    | false =>
      refine hwhole (.inl hrelative) fun latest hsum => .inr ?_
      rw [FieldSchema.Preserves, htype]
      exact .addAmount haccepted hwholeNumber hsum
    | true =>
      refine readsAsViewed_amount hwholeNumber htype hfield hrelative hshown ?_ hleaves
      unfold clauses at hpart
      rw [if_neg (show ¬ (ScalarDelta.ofAmount amount).remove = true from Bool.false_ne_true)]
        at hpart
      obtain ⟨other, hother, hpart⟩ := bind_eq_ok_iff.mp hpart
      cases helement.symm.trans (ValueType.requireElement_eq_ok_iff.mp hother)
      rwa [hrelative, if_pos rfl] at hpart

/-- A collection that is written whole keeps nothing of what a record shows, or what survives. -/
theorem restsOn_of_lasts {delta : CollectionDelta}
    (hlasts : delta.clears = true ∨ field.HoldsLasting table shown)
    (hwhole : field.writesRelative = true → field.type.kind = .set) :
    delta.RestsOn table field.compress field.type (shown.getD .null) := by
  rintro ⟨hkept, -⟩
  rcases hlasts with hclears | ⟨value, rfl, hpreserved | ⟨hrelative, hkind⟩⟩
  · cases hkept.symm.trans hclears
  · exact hpreserved
  · exact absurd (hwhole hrelative) hkind

theorem readsAsViewed_collection (haccepted : table.Accepted) (delta : CollectionDelta) :
    (FieldMutation.collection delta).ReadsAsViewed table := by
  intro field path shown part held stored hchanges hstorable hfield _ hlasts hshown hpart hleaves
  obtain ⟨element, helement⟩ := hstorable.element
  have htype := ValueType.eq_of hlasts.1.kind helement
  have hlatest : (FieldMutation.collection delta).latest table field (shown.getD .null) =
      delta.merge (shown.getD .null) element := by
    rw [latest, ValueType.requireElement_eq_ok_iff.mpr helement, ok_bind]
  have hintegral : element.isIntegral = true := by
    have hintegral := hfield.integral
    rwa [ValueType.isIntegral, helement] at hintegral
  have hset : delta.kind = .set → element.isSetElement = true := fun hset =>
    hstorable.set (hlasts.1.kind.trans hset) element helement
  cases hrelative : field.writesRelative with
  | false =>
    have hwhole : (FieldMutation.collection delta).WritesWhole field (shown.getD .null) := hrelative
    obtain ⟨value, hvalue, hstores⟩ := stores_latest hwhole hchanges hstorable hpart hleaves
    refine ⟨value, hvalue, hstores.readsAs hfield (.inr ?_)⟩
    have hrests := restsOn_of_lasts hlasts.2 fun hwritten =>
      absurd (hrelative.symm.trans hwritten) Bool.false_ne_true
    rw [FieldSchema.Preserves, htype]
    rw [htype] at hrests
    exact CollectionDelta.survives_merge haccepted hset hintegral hlasts.1.distinct
      (hlasts.1.lasts element helement) hrests (hlatest.symm.trans hvalue)
  | true =>
    obtain ⟨hcompress, hplain⟩ := hfield.storage_of_writesRelative hrelative
    have hdefault := hfield.default_of_writesRelative hrelative
    have hlasting := hlasts.1.lasts element helement
    have hrests (hkind : delta.kind = .set) :=
      restsOn_of_lasts hlasts.2 fun _ => hlasts.1.kind.trans hkind
    rw [htype, hcompress] at hrests
    rw [hcompress] at hlasting
    unfold clauses at hpart
    rw [hrelative, if_pos rfl, htype] at hpart
    obtain ⟨merged, hmerge⟩ := CollectionDelta.exists_merge_of_clauses hchanges hpart
    refine ⟨merged, hlatest.trans hmerge, fun _ => ?_⟩
    have hreads : Codec.ReadsCollection table delta.kind element held (shown.getD .null) := by
      have hreads := hshown.reads
      cases held with
      | none =>
        rw [Codec.ReadsCollection, ← hreads, FieldSchema.absentValue_of_default hdefault, htype]
        cases delta <;> rfl
      | some value => rwa [FieldSchema.Reads, Codec.decodeField, hplain, htype] at hreads
    have hcounts (value : Attribute) (hvalue : held = some value) :=
      htype ▸ (hshown.regular hplain value hvalue).counts
    rw [field.settled_of_present (CollectionDelta.isNull_of_merge hmerge)]
    rcases (CollectionDelta.stores_of_leaves hchanges hpart hleaves).reads_merge haccepted hset
      hintegral hlasts.1.distinct hlasting hrests hcounts hreads hmerge with
      ⟨hkind, rfl, rfl⟩ | ⟨after, read, rfl, hread, halike⟩
    · refine ⟨_, ?_, .refl _⟩
      rw [FieldSchema.Reads, FieldSchema.absentValue_of_default hdefault, htype, hkind]
      rfl
    · refine ⟨read, ?_, halike⟩
      rw [FieldSchema.Reads, Codec.decodeField, hplain, htype]
      exact hread

mutual

/-- An object or a collection for which an empty change that lasts is pending is held. -/
theorem isHeld_of_lasts {field : FieldSchema} {shown : Option Value} :
    (mutation : FieldMutation) → mutation.isEmpty = true →
    mutation.Fits table field.type shown → mutation.Lasts table field shown → mutation.IsHeld shown
  | .scalar _, _, _, _ => trivial
  | .collection delta, hempty, _, ⟨_, hkeeps⟩ => by
    rcases hkeeps with hclears | ⟨value, rfl, _⟩
    · rw [delta.clears_of_isEmpty hempty] at hclears
      cases hclears
    · rfl
  | .object nested mutations, hempty, ⟨_, _, _, _, hfits⟩, ⟨hshown, hlasts⟩ => by
    refine ⟨?_, allHeld_of_allLast mutations hempty hfits hlasts⟩
    rw [hshown]
    rfl

theorem allHeld_of_allLast {base : Record} : (mutations : List (String × FieldMutation)) →
    areEmpty mutations = true → AllFit table base mutations → AllLast table base mutations →
    AllHeld base mutations
  | [], _, _, _ => trivial
  | (name, mutation) :: rest, hempty, ⟨⟨field, hfield, hfits⟩, hrestFits⟩, ⟨hlasts, hrestLasts⟩ => by
    rw [areEmpty, Bool.and_eq_true] at hempty
    exact ⟨isHeld_of_lasts mutation hempty.1 hfits (hlasts field hfield).2,
      allHeld_of_allLast rest hempty.2 hrestFits hrestLasts⟩

end

section Objects

variable {object : TypeSchema} {base viewed : Record} {mutations : List (String × FieldMutation)}
  {entries later : Item}

/-- The view shows a value for a field for which something is pending, and the field is read as
that. -/
theorem LeavesField.readsAs {mutation : FieldMutation} (haccepted : table.Accepted)
    (hshown : base.Shown table object entries) (hfits : AllFit table base mutations)
    (hlasts : AllLast table base mutations)
    (hpending : Entries.find? mutations field.name = some mutation)
    (hreads : mutation.ReadsAsViewed table) (hfield : field ∈ object.fields)
    (hleaves : LeavesField table path base mutations field (Item.get? entries field.wireName)
      (Item.get? later field.wireName)) :
    ∃ latest, mutation.latest table field ((base.get? field.name).getD .null) = .ok latest ∧
      field.ReadsAs table (Item.get? later field.wireName) latest := by
  have hfieldOf := hshown.fieldOf? haccepted hfield
  have hmem := Entries.mem_of_find? hpending
  obtain ⟨found, hfound, hmutationFits⟩ := allFit_iff.mp hfits _ hmem
  cases hfieldOf.symm.trans hfound
  obtain ⟨hlasting, hmutationLasts⟩ := allLast_iff.mp hlasts _ hmem field hfieldOf
  obtain ⟨part, hpart, hleaves⟩ := hleaves
  unfold clausesOf at hpart
  rw [hpending] at hpart
  dsimp only at hpart
  cases hempty : mutation.isEmpty with
  | true =>
    rw [if_pos hempty] at hpart
    cases hpart
    obtain ⟨value, hvalue, hshows, hheld⟩ := latest_of_isEmpty haccepted hfieldOf hshown.shaped
      mutation hmutationFits hempty
    refine ⟨value, hvalue, fun _ => ⟨value, ?_, ?_⟩⟩
    · have hread := (hshown.ofField haccepted hfield hlasting.persist).reads
      rw [hheld (isHeld_of_lasts mutation hempty hmutationFits hmutationLasts)] at hread
      rw [(leaves_of_nil rfl).mp hleaves]
      exact hread
    · rw [field.settled_of_present hshows.present]
      exact .refl value
  | false =>
    rw [if_neg (by rw [hempty]; exact Bool.false_ne_true)] at hpart
    exact hreads hempty ((hshown.fieldsDistinct haccepted).storable field hfield) hlasting
      hmutationFits hmutationLasts (hshown.ofField haccepted hfield hlasting.persist) hpart hleaves

/-- An object has a view if each of its changed fields has one. -/
theorem exists_viewFields {start : Record}
    (hlatest : ∀ entry ∈ mutations, ∃ field value, object.requireField entry.1 = .ok field ∧
      entry.2.latest table field ((base.get? entry.1).getD .null) = .ok value) :
    ∃ viewed, viewFields table object base start mutations = .ok viewed := by
  induction mutations generalizing start with
  | nil => exact ⟨start, rfl⟩
  | cons entry rest ih =>
    obtain ⟨name, mutation⟩ := entry
    obtain ⟨⟨field, value, hfield, hvalue⟩, hrest⟩ := List.forall_mem_cons.mp hlatest
    rw [viewFields, hfield, ok_bind, hvalue, ok_bind]
    exact ih hrest

/-- What a view shows in a field is not null, and it is shown in declared fields only. -/
theorem presents_of_viewedAs (hreads : base.ReadsFrom table object entries)
    (hfields : (object.fields.map FieldSchema.name).Nodup)
    (hviewed : ViewedAs table object base base mutations viewed) :
    (∀ name value, viewed.get? name = some value → value.isNull = false) ∧
      ∀ name, (∀ field ∈ object.fields, field.name ≠ name) → viewed.get? name = none := by
  constructor
  · intro name value hvalue
    cases hpending : Entries.find? mutations name with
    | none =>
      rw [hviewed.untouched name hpending] at hvalue
      exact hreads.isNull hvalue
    | some mutation =>
      obtain ⟨_, _, _, _, hget⟩ := hviewed.touched name mutation hpending
      rw [hget] at hvalue
      split at hvalue
      · cases hvalue
      · rename_i hpresent
        cases hvalue
        rwa [Bool.not_eq_true] at hpresent
  · intro name hother
    cases hpending : Entries.find? mutations name with
    | none => rw [hviewed.untouched name hpending, hreads.undeclared name hother]
    | some mutation =>
      obtain ⟨field, _, hfield, _⟩ := hviewed.touched name mutation hpending
      obtain ⟨hmem, hname⟩ := (TypeSchema.field?_eq_some_iff hfields).mp hfield
      exact absurd hname (hother field hmem)

/-- An object whose fields are left as their changes leave them has a view, and is read as that. -/
theorem exists_view_of_leaves (haccepted : table.Accepted)
    (hshown : base.Shown table object entries) (hnames : (Entries.names mutations).Nodup)
    (hfits : AllFit table base mutations) (hlasts : AllLast table base mutations)
    (hparts : ∀ name mutation, Entries.find? mutations name = some mutation →
      mutation.ReadsAsViewed table)
    (hleaves : ∀ field ∈ object.fields, field.persist = true →
      LeavesField table path base mutations field (Item.get? entries field.wireName)
        (Item.get? later field.wireName)) :
    ∃ viewed, viewFields table object base base mutations = .ok viewed ∧
      viewed.typeName = base.typeName ∧ viewed.revision = base.revision ∧
      ((∀ json, Compresses table .plain viewed.toValue json → json.Survives) →
        ∃ read, Codec.readMembers (Codec.decodeFields table later) (.empty base.typeName)
            object.fields = .ok read ∧ read.typeName = base.typeName ∧ read.revision = 0 ∧
          Value.AlikeEntries read.fields viewed.fields) := by
  have hfields := hshown.fieldsDistinct haccepted
  have hreads : ∀ field ∈ object.fields, ∀ mutation,
      Entries.find? mutations field.name = some mutation → field.Lasting ∧
        ∃ latest, mutation.latest table field ((base.get? field.name).getD .null) = .ok latest ∧
          field.ReadsAs table (Item.get? later field.wireName) latest := by
    intro field hfield mutation hpending
    have hlasting := (allLast_iff.mp hlasts _ (Entries.mem_of_find? hpending) field
      (hshown.fieldOf? haccepted hfield)).1
    exact ⟨hlasting, (hleaves field hfield hlasting.persist).readsAs haccepted hshown hfits hlasts
      hpending (hparts _ _ hpending) hfield⟩
  obtain ⟨viewed, hview⟩ : ∃ viewed, viewFields table object base base mutations = .ok viewed := by
    refine exists_viewFields fun entry hmem => ?_
    obtain ⟨field, hfieldOf, _⟩ := allFit_iff.mp hfits entry hmem
    have hrequire := TableSchema.requireField_of_fieldOf? hshown.declared hfieldOf
    obtain ⟨hfield, hname⟩ := (TypeSchema.field?_eq_some_iff hfields.names).mp
      (TypeSchema.requireField_eq_ok_iff.mp hrequire)
    obtain ⟨_, latest, hlatest, _⟩ := hreads field hfield entry.2
      (hname ▸ Entries.find?_of_mem hnames hmem)
    exact ⟨field, latest, hrequire, hname ▸ hlatest⟩
  have hviewed := viewFields_ok hnames hshown.reads.names hview
  refine ⟨viewed, hview, hviewed.typeName, hviewed.revision, fun hsurvives => ?_⟩
  have hmembers : ∀ field ∈ object.fields, ∃ value,
      Codec.readMember (Codec.decodeFields table later) field = .ok value ∧
        value.Alike ((viewed.get? field.name).getD .null) := by
    intro field hfield
    cases hpending : Entries.find? mutations field.name with
    | none =>
      refine ⟨_, hshown.readMember_of_kept hfield fun hpersist =>
        (hleaves field hfield hpersist).kept hpending, ?_⟩
      rw [hviewed.untouched _ hpending]
      exact .refl _
    | some mutation =>
      obtain ⟨hlasting, latest, hlatest, hreadsAs⟩ := hreads field hfield mutation hpending
      obtain ⟨found, value, hfound, hvalue, hget⟩ := hviewed.touched _ _ hpending
      cases (hshown.field? haccepted hfield).symm.trans hfound
      cases hlatest.symm.trans hvalue
      obtain ⟨read, hread, halike⟩ := hreadsAs fun hpresent json hwithin => by
        rw [field.settled_of_present hpresent, hpresent] at hget
        exact hsurvives json (.field (hviewed.typeName ▸ hshown.declared)
          (hshown.field? haccepted hfield) hlasting.persist (Entries.mem_of_find? hget) hwithin)
      refine ⟨read, (FieldSchema.readMember_eq_ok_iff hlasting.persist).mpr hread, ?_⟩
      rw [hget, Value.getD_of_isNull]
      exact halike
  obtain ⟨read, hread⟩ := Codec.exists_readMembers fun field hfield =>
    (hmembers field hfield).imp fun _ hvalue => hvalue.1
  obtain ⟨hreadsFrom, htypeName, hrevision⟩ := Record.readsFrom_of_readMembers hfields.names hread
  obtain ⟨hpresent, hundeclared⟩ := presents_of_viewedAs hshown.reads hfields.names hviewed
  exact ⟨read, hread, htypeName, hrevision,
    hreadsFrom.alikeEntries hviewed.names hundeclared hpresent hmembers⟩

end Objects

theorem readsAsViewed_object (haccepted : table.Accepted) {nested : Record}
    {mutations : List (String × FieldMutation)} (hnames : (Entries.names mutations).Nodup)
    (hparts : ∀ name mutation, Entries.find? mutations name = some mutation →
      mutation.ReadsAsViewed table) :
    (FieldMutation.object nested mutations).ReadsAsViewed table := by
  intro field path shown part held stored _ hstorable hfield hfits hlasts hshown hpart hleaves
  obtain ⟨rfl, hlasts⟩ := hlasts
  obtain ⟨typeName, htype, -, -, hfits⟩ := hfits
  have hplain := hfield.storage_of_scalar hstorable (by rw [htype]; rfl)
  obtain ⟨rfl, object, entries, rfl, hobject, hread⟩ :=
    hshown.exists_entries haccepted hfield hplain htype
  have hrequire := TableSchema.requireType_eq_ok_iff.mpr hobject.declared
  unfold clauses at hpart
  rw [hrequire, ok_bind] at hpart
  obtain ⟨later, rfl, hfields, -⟩ :=
    leaves_fields (hobject.fieldsDistinct haccepted) hnames hpart hleaves
  obtain ⟨viewed, hview, htypeName, hrevision, hreads⟩ :=
    exists_view_of_leaves haccepted hobject hnames hfits hlasts hparts hfields
  refine ⟨viewed.toValue, ?_, fun hsurvives => ?_⟩
  · rw [latest, hrequire, ok_bind, hview]
    rfl
  obtain ⟨read, hlater, hreadName, hreadRevision, hentries⟩ :=
    hreads fun json hwithin => hsurvives rfl json (hplain ▸ hwithin)
  refine ⟨read.toValue, ?_, ?_⟩
  · rw [FieldSchema.Reads, Codec.decodeField, hplain, htype,
      Codec.decode_object_eq hobject.declared, hlater]
    rfl
  · rw [field.settled_of_present (show viewed.toValue.isNull = false from rfl)]
    refine Value.alike_object_iff.mpr ⟨hreadName.trans htypeName.symm, hentries, ?_⟩
    rw [hreadRevision, hrevision, hread]

/-- Changes of any kind leave what their view shows, at every depth of objects. -/
theorem readsAsViewed (haccepted : table.Accepted) {mutation : FieldMutation}
    (hdistinct : mutation.Distinct) : mutation.ReadsAsViewed table := by
  induction hdistinct with
  | scalar delta => exact readsAsViewed_scalar haccepted delta
  | collection => exact readsAsViewed_collection haccepted _
  | object names _ ih => exact readsAsViewed_object haccepted names ih

end FieldMutation

end RecordStore
