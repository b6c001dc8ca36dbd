import RecordStore.Proofs.Codec.Parts

/-!
# Values of a type under a demand

The values of a type at every depth, up to what is asked of the elements of sets and of the objects
that are stored by id; and what a computation reads, which otherwise fails with a codec error.
-/

namespace RecordStore

variable {table : TableSchema} {type : ValueType} {element : ElementType} {value : Value}

/-! ### Types of accepted fields -/

/-- A type that a field of the table may have. -/
structure ValueType.Allowed (table : TableSchema) (type : ValueType) : Prop where
  element : ∃ element, type.element = some element
  object : ∀ typeName, type.element = some (.object typeName) →
    ∃ object, table.type? typeName = some object
  set : type.kind = .set → ∀ element, type.element = some element → element.isSetElement = true

theorem ValueType.Allowed.scalar {kind : Kind} (hallowed : Allowed table ⟨kind, some element⟩) :
    (ValueType.scalar element).Allowed table :=
  ⟨⟨element, rfl⟩, hallowed.object, fun hkind => nomatch hkind⟩

theorem TableSchema.Accepted.allowed {declared : TypeSchema} {field : FieldSchema}
    (haccepted : table.Accepted) (hdeclared : declared ∈ table.types)
    (hfield : field ∈ declared.fields) : field.type.Allowed table := by
  have hstorable := (haccepted.fields declared hdeclared).storable field hfield
  refine ⟨hstorable.element, fun typeName helement => ?_, hstorable.set⟩
  obtain ⟨object, hobject, _⟩ := haccepted.references declared hdeclared field hfield _ helement
  exact ⟨object, hobject⟩

/-! ### Values that fulfil a demand -/

/-- What is asked of the elements of sets, and of the items of lists that are stored by id. -/
structure Demand where
  element : ElementType → Value → Prop
  keyed : Value → Prop

/-- The values of a type, down to every depth, that fulfil a demand. Fields that are not set are left
out of an object. -/
inductive Fulfils (table : TableSchema) (demand : Demand) : ValueType → Value → Prop where
  | null (element : ElementType) : Fulfils table demand (.scalar element) .null
  | string (text : String) : Fulfils table demand (.scalar .string) (.string text)
  | boolean (value : Bool) : Fulfils table demand (.scalar .boolean) (.boolean value)
  | binary (bytes : List UInt8) : Fulfils table demand (.scalar .binary) (.binary bytes)
  | number {element : ElementType} (numeric : element.isNumeric = true) (number : Number) :
    Fulfils table demand (.scalar element) (.number (number.narrow element))
  | object {typeName : String} {type : TypeSchema} {fields : List (String × Value)}
    (declared : table.type? typeName = some type)
    (present : ∀ name value, (name, value) ∈ fields → value.isNull = false)
    (known : ∀ name ∈ Entries.names fields, (type.field? name).isSome = true)
    (fulfils : ∀ name value field, (name, value) ∈ fields → type.field? name = some field →
      Fulfils table demand field.type value)
    (keyed : ∀ name items field, (name, .list items) ∈ fields → type.field? name = some field →
      field.compress = false → field.rekeyById = true → ∀ item ∈ items, demand.keyed item) :
    Fulfils table demand (.scalar (.object typeName)) (.object typeName fields 0)
  | list {element : ElementType} {items : List Value}
    (fulfils : ∀ item ∈ items, Fulfils table demand (.scalar element) item) :
    Fulfils table demand ⟨.list, some element⟩ (.list items)
  | map {element : ElementType} {entries : List (String × Value)}
    (fulfils : ∀ name value, (name, value) ∈ entries →
      Fulfils table demand (.scalar element) value) :
    Fulfils table demand ⟨.map, some element⟩ (.map entries)
  | set {element : ElementType} {elements : List Value}
    (admitted : ∀ value ∈ elements, demand.element element value) :
    Fulfils table demand ⟨.set, some element⟩ (.set elements)

/-- What a native set may hold, whatever its elements are declared to be, and null. -/
inductive Unchecked (element : ElementType) : Value → Prop where
  | null : Unchecked element .null
  | string (text : String) : Unchecked element (.string text)
  | binary (bytes : List UInt8) : Unchecked element (.binary bytes)
  | number (number : Number) : Unchecked element (.number (number.narrow element))

/-- What reading sees to. -/
def Demand.read : Demand where
  element := Unchecked
  keyed _ := True

theorem Fulfils.unchecked {demand : Demand} (hset : element.isSetElement = true)
    (hfulfils : Fulfils table demand (.scalar element) value) : Unchecked element value := by
  cases hfulfils with
  | null => exact .null
  | string text => exact .string text
  | binary bytes => exact .binary bytes
  | number _ number => exact .number number
  | boolean | object => cases hset

theorem Fulfils.of_present {demand : Demand}
    (hfulfils : value.isNull = false → Fulfils table demand (.scalar element) value) :
    Fulfils table demand (.scalar element) value := by
  cases value with
  | null => exact .null element
  | _ => exact hfulfils rfl

/-! ### Objects field by field -/

/-- What is set in a field is of the type of the field. -/
structure FieldSchema.Takes (table : TableSchema) (demand : Demand) (field : FieldSchema)
    (value : Value) : Prop where
  fulfils : Fulfils table demand field.type value
  keyed : field.compress = false → field.rekeyById = true → ∀ items, value = .list items →
    ∀ item ∈ items, demand.keyed item

theorem FieldSchema.takes_read {field : FieldSchema}
    (hfulfils : Fulfils table .read field.type value) : field.Takes table .read value :=
  ⟨hfulfils, fun _ _ _ _ _ _ => trivial⟩

/-- A nested object of which every field that is set is declared and takes its value. -/
structure Record.Filled (table : TableSchema) (demand : Demand) (type : TypeSchema)
    (typeName : String) (record : Record) : Prop where
  typeName : record.typeName = typeName
  revision : record.revision = 0
  fields : ∀ name value, (name, value) ∈ record.fields → value.isNull = false ∧
    ∃ field, type.field? name = some field ∧ field.Takes table demand value

namespace Record.Filled

variable {demand : Demand} {declared : TypeSchema} {typeName : String} {record : Record}

theorem empty : (Record.empty typeName).Filled table demand declared typeName :=
  ⟨rfl, rfl, fun _ _ hmem => nomatch hmem⟩

theorem set (hrecord : record.Filled table demand declared typeName) {name : String}
    {field : FieldSchema} (hfield : declared.field? name = some field)
    (htakes : value.isNull = false → field.Takes table demand value) :
    (record.set name value).Filled table demand declared typeName := by
  refine ⟨hrecord.typeName, hrecord.revision, fun other held hmem => ?_⟩
  unfold Record.set at hmem
  cases hnull : value.isNull with
  | true =>
    rw [if_pos hnull, Entries.erase_eq_filter] at hmem
    exact hrecord.fields other held (List.mem_filter.mp hmem).1
  | false =>
    rw [if_neg (by rw [hnull]; exact Bool.false_ne_true)] at hmem
    rcases Entries.mem_put hmem with hsame | hmem
    · cases hsame
      exact ⟨hnull, field, hfield, htakes hnull⟩
    · exact hrecord.fields other held hmem

theorem toValue (hrecord : record.Filled table demand declared typeName)
    (hdeclared : table.type? typeName = some declared) :
    Fulfils table demand (.scalar (.object typeName)) record.toValue := by
  obtain ⟨_, fields, _⟩ := record
  obtain ⟨rfl, rfl, hfields⟩ := hrecord
  refine .object hdeclared (fun name value hmem => (hfields name value hmem).1)
    (fun name hmem => ?_) (fun name value field hmem hfield => ?_)
    fun name items field hmem hfield hcompress hrekey => ?_
  · obtain ⟨⟨key, value⟩, hentry, rfl⟩ := List.mem_map.mp hmem
    obtain ⟨_, field, hfield, _⟩ := hfields key value hentry
    rw [hfield]
    rfl
  · obtain ⟨_, other, hother, htakes⟩ := hfields name value hmem
    cases hother.symm.trans hfield
    exact htakes.fulfils
  · obtain ⟨_, other, hother, htakes⟩ := hfields name _ hmem
    cases hother.symm.trans hfield
    exact htakes.keyed hcompress hrekey items rfl

end Record.Filled

/-! ### Outcomes of reading -/

namespace Codec

/-- Reading yields a result of which something holds, or fails with a codec error. -/
def Reads {α : Type} (holds : α → Prop) (outcome : Except Error α) : Prop :=
  match outcome with
  | .ok result => holds result
  | .error error => ∃ fault, error = .codec fault

namespace Reads

variable {α β : Type} {holds : α → Prop} {follows : β → Prop} {outcome : Except Error α}

theorem ok {result : α} (hresult : holds result) : Reads holds (.ok result) := hresult

theorem error (fault : CodecFault) : Reads holds (.error (.codec fault)) := ⟨fault, rfl⟩

theorem bind {next : α → Except Error β} (hreads : Reads holds outcome)
    (hnext : ∀ result, holds result → Reads follows (next result)) :
    Reads follows (outcome >>= next) := by
  cases outcome with
  | ok result => exact hnext result hreads
  | error error => exact hreads

theorem map {change : α → β} (hreads : Reads holds outcome)
    (hchange : ∀ result, holds result → follows (change result)) :
    Reads follows (outcome.map change) := by
  cases outcome with
  | ok result => exact hchange result hreads
  | error error => exact hreads

theorem mono {weaker : α → Prop} (hreads : Reads holds outcome)
    (hweaker : ∀ result, holds result → weaker result) : Reads weaker outcome := by
  cases outcome with
  | ok result => exact hweaker result hreads
  | error error => exact hreads

theorem mapM {change : β → Except Error α} {items : List β}
    (hreads : ∀ item ∈ items, Reads holds (change item)) :
    Reads (fun results => ∀ result ∈ results, holds result) (items.mapM change) := by
  induction items with
  | nil => exact fun _ hmem => nomatch hmem
  | cons item rest ih =>
    rw [List.mapM_cons]
    refine (hreads item List.mem_cons_self).bind fun first hfirst => ?_
    refine (ih fun other hmem => hreads other (.tail _ hmem)).bind fun others hothers => ?_
    exact ok (List.forall_mem_cons.mpr ⟨hfirst, hothers⟩)

theorem entries {change : β → Except Error α} {items : List (String × β)}
    (hreads : ∀ name item, (name, item) ∈ items → Reads holds (change item)) :
    Reads (fun results => ∀ name result, (name, result) ∈ results → holds result)
      (Entries.mapM change items) := by
  have hentries : Reads (fun results : List (String × α) => ∀ result ∈ results, holds result.2)
      (Entries.mapM change items) :=
    mapM fun item hmem => (hreads item.1 item.2 hmem).map fun _ hresult => hresult
  exact hentries.mono fun results hresults name result hmem => hresults _ hmem

end Reads

end Codec

end RecordStore
