import RecordStore.Proofs.Codec.RoundTrip
import RecordStore.Proofs.Codec.Sound
import RecordStore.Proofs.Record.Fields
import RecordStore.Proofs.Update.Execution

/-!
# Integers within their declared width

A number of type integer is within its width when narrowing it to 32 bits leaves it as it is. Those
are the numbers that storing an integer gives back, and whatever is stored, only such numbers are
read where integers are declared.
-/

namespace RecordStore

variable {table : TableSchema} {element : ElementType}

/-! ### Numbers -/

namespace Number

/-- Narrowing the number to 32 bits leaves it as it is. -/
def InWidth (number : Number) : Prop :=
  number.narrow .integer = number

theorem inWidth_narrow (number : Number) : (number.narrow .integer).InWidth := by
  simp [InWidth, narrow, toInt64]

/-- Sums wrap around, whatever is added. -/
theorem inWidth_add (left right : Number) : (left.add right .integer).InWidth := by
  simp [InWidth, narrow, add, toInt64]

theorem inWidth_iff {number : Number} :
    number.InWidth ↔ ∃ value : Int64, number = .integer value ∧ -2 ^ 31 ≤ value.toInt ∧
      value.toInt < 2 ^ 31 := by
  constructor
  · intro hwidth
    have hleast := number.toInt64.toInt32.le_toInt
    have hmost := number.toInt64.toInt32.toInt_lt
    refine ⟨number.toInt64.toInt32.toInt64, hwidth.symm, ?_, ?_⟩ <;> rw [Int32.toInt_toInt64]
    · exact hleast
    · exact hmost
  · rintro ⟨value, rfl, hleast, hmost⟩
    rw [InWidth, narrow, toInt64, Int64.narrow_integer hleast hmost]

end Number

namespace Codec

/-- What is stored of a number of type integer reads as the number narrowed to 32 bits. -/
theorem decode_encode_integer (number : Number) :
    (encode table .plain (.scalar .integer) (.number number) >>=
      decode table .plain (.scalar .integer)) = .ok (.number (number.narrow .integer)) := by
  rw [encode_number number (.inl rfl), ok_bind, decode_number _ rfl, Number.narrow,
    numberOfText_text, ok_bind, ← Number.narrow, number.inWidth_narrow]
  rfl

/-- An integer is given back as it was stored when it is within its width, and never otherwise. -/
theorem decode_encode_integer_iff (number : Number) :
    (encode table .plain (.scalar .integer) (.number number) >>=
      decode table .plain (.scalar .integer)) = .ok (.number number) ↔ number.InWidth := by
  rw [decode_encode_integer, Except.ok.injEq, Value.number.injEq, Number.InWidth]

end Codec

/-! ### The integers that a value shows -/

namespace Value

/-- A value shows a number where a number of type integer is declared: the element is that of the
field that holds the value, and the fields of an object are those of its type. -/
inductive ShowsInteger (table : TableSchema) (number : Number) :
    Option ElementType → Value → Prop where
  | number : ShowsInteger table number (some .integer) (.number number)
  | field {element : Option ElementType} {typeName : String} {fields : List (String × Value)}
    {revision : Int64} {name : String} {value : Value} {field : FieldSchema}
    (held : Entries.find? fields name = some value)
    (declared : table.fieldOf? typeName name = some field)
    (shows : ShowsInteger table number field.type.element value) :
    ShowsInteger table number element (.object typeName fields revision)
  | item {element : Option ElementType} {items : List Value} {item : Value} (mem : item ∈ items)
    (shows : ShowsInteger table number element item) :
    ShowsInteger table number element (.list items)
  | element {element : Option ElementType} {elements : List Value} {member : Value}
    (mem : member ∈ elements) (shows : ShowsInteger table number element member) :
    ShowsInteger table number element (.set elements)
  | entry {element : Option ElementType} {entries : List (String × Value)} {name : String}
    {value : Value} (mem : (name, value) ∈ entries)
    (shows : ShowsInteger table number element value) :
    ShowsInteger table number element (.map entries)

/-- Every number that a value shows where an integer is declared is within its width, or is one of
those that were passed. -/
def InWidth (table : TableSchema) (passed : Number → Prop) (element : Option ElementType)
    (value : Value) : Prop :=
  ∀ number, value.ShowsInteger table number element → number.InWidth ∨ passed number

variable {passed : Number → Prop} {element : Option ElementType}

@[simp] theorem inWidth_null : null.InWidth table passed element := nofun

@[simp] theorem inWidth_string (text : String) :
    (string text).InWidth table passed element := nofun

@[simp] theorem inWidth_boolean (value : Bool) :
    (boolean value).InWidth table passed element := nofun

@[simp] theorem inWidth_binary (bytes : List UInt8) :
    (binary bytes).InWidth table passed element := nofun

theorem inWidth_number_iff {number : Number} :
    (Value.number number).InWidth table passed element ↔
      (element = some .integer → number.InWidth ∨ passed number) := by
  constructor
  · rintro hall rfl
    exact hall number .number
  · rintro hnumber _ ⟨⟩
    exact hnumber rfl

theorem inWidth_object_iff {typeName : String} {fields : List (String × Value)}
    {revision : Int64} :
    (object typeName fields revision).InWidth table passed element ↔
      ∀ name value field, Entries.find? fields name = some value →
        table.fieldOf? typeName name = some field →
        value.InWidth table passed field.type.element := by
  constructor
  · intro hall name value field hheld hdeclared number hshows
    exact hall number (.field hheld hdeclared hshows)
  · intro hall number hshows
    cases hshows with
    | field held declared shows => exact hall _ _ _ held declared number shows

theorem inWidth_list_iff {items : List Value} :
    (list items).InWidth table passed element ↔
      ∀ item ∈ items, item.InWidth table passed element := by
  constructor
  · intro hall item hmem number hshows
    exact hall number (.item hmem hshows)
  · intro hall number hshows
    cases hshows with
    | item mem shows => exact hall _ mem number shows

theorem inWidth_set_iff {elements : List Value} :
    (set elements).InWidth table passed element ↔
      ∀ member ∈ elements, member.InWidth table passed element := by
  constructor
  · intro hall member hmem number hshows
    exact hall number (.element hmem hshows)
  · intro hall number hshows
    cases hshows with
    | element mem shows => exact hall _ mem number shows

theorem inWidth_map_iff {entries : List (String × Value)} :
    (map entries).InWidth table passed element ↔
      ∀ entry ∈ entries, entry.2.InWidth table passed element := by
  constructor
  · intro hall entry hmem number hshows
    exact hall number (.entry hmem hshows)
  · intro hall number hshows
    cases hshows with
    | entry mem shows => exact hall _ mem number shows

@[simp] theorem inWidth_list_nil : (list []).InWidth table passed element :=
  inWidth_list_iff.mpr fun _ hmem => nomatch hmem

@[simp] theorem inWidth_set_nil : (set []).InWidth table passed element :=
  inWidth_set_iff.mpr fun _ hmem => nomatch hmem

@[simp] theorem inWidth_map_nil : (map []).InWidth table passed element :=
  inWidth_map_iff.mpr fun _ hmem => nomatch hmem

end Value

/-- Every number that a record shows in a field of type integer is within its width, or is one of
those that were passed. -/
def Record.InWidth (table : TableSchema) (passed : Number → Prop) (record : Record) : Prop :=
  ∀ name value field, record.get? name = some value →
    table.fieldOf? record.typeName name = some field →
    value.InWidth table passed field.type.element

namespace Record

variable {passed : Number → Prop}

theorem inWidth_toValue_iff {element : Option ElementType} {record : Record} :
    record.toValue.InWidth table passed element ↔ record.InWidth table passed :=
  Value.inWidth_object_iff

/-- What a record holds in a field, or the null that an absent field stands for. -/
theorem InWidth.getD {record : Record} (hrecord : record.InWidth table passed) {name : String}
    {field : FieldSchema} (hfield : table.fieldOf? record.typeName name = some field) :
    ((record.get? name).getD .null).InWidth table passed field.type.element := by
  cases hheld : record.get? name with
  | none => exact Value.inWidth_null
  | some value => exact hrecord name value field hheld hfield

theorem InWidth.set {record : Record} (hrecord : record.InWidth table passed)
    {name : String} {value : Value} {field : FieldSchema}
    (hfield : table.fieldOf? record.typeName name = some field)
    (hvalue : value.InWidth table passed field.type.element) :
    (record.set name value).InWidth table passed := by
  intro other held otherField hheld hother
  rw [get?_set] at hheld
  split at hheld
  · rename_i hname
    subst hname
    cases hfield.symm.trans hother
    split at hheld <;> cases hheld
    exact hvalue
  · exact hrecord other held otherField hheld hother

end Record

/-! ### What is read -/

section Reading

variable {passed : Number → Prop} {type : ValueType} {value : Value}

theorem Value.inWidth_narrow (number : Number) :
    (Value.number (number.narrow element)).InWidth table passed (some element) := by
  refine Value.inWidth_number_iff.mpr fun hinteger => ?_
  cases hinteger
  exact .inl number.inWidth_narrow

theorem Unchecked.inWidth (hunchecked : Unchecked element value) :
    value.InWidth table passed (some element) := by
  cases hunchecked with
  | null => exact Value.inWidth_null
  | string text => exact Value.inWidth_string text
  | binary bytes => exact Value.inWidth_binary bytes
  | number number => exact Value.inWidth_narrow number

theorem Fulfils.inWidth (hfulfils : Fulfils table .read type value) :
    value.InWidth table passed type.element := by
  induction hfulfils with
  | null => exact Value.inWidth_null
  | string text => exact Value.inWidth_string text
  | boolean value => exact Value.inWidth_boolean value
  | binary bytes => exact Value.inWidth_binary bytes
  | number numeric number => exact Value.inWidth_narrow number
  | object declared present known fulfils keyed ih =>
    refine Value.inWidth_object_iff.mpr fun name value field hheld hfield => ?_
    rw [TableSchema.fieldOf?, declared] at hfield
    exact ih name value field (Entries.mem_of_find? hheld) hfield
  | list fulfils ih => exact Value.inWidth_list_iff.mpr ih
  | map fulfils ih => exact Value.inWidth_map_iff.mpr fun entry hmem => ih _ _ hmem
  | set admitted =>
    exact Value.inWidth_set_iff.mpr fun member hmem => (admitted member hmem).inWidth

/-- What a field reads as where it is absent is within its width. -/
theorem FieldSchema.inWidth_absentValue (haccepted : table.Accepted)
    (hdefaults : table.ReadsDefaults) {typeName name : String} {field : FieldSchema}
    (hfield : table.fieldOf? typeName name = some field) :
    field.absentValue.InWidth table passed field.type.element := by
  obtain ⟨declared, hdeclared, hfield⟩ := Option.bind_eq_some_iff.mp hfield
  cases hnull : field.absentValue.isNull with
  | false =>
    exact (Codec.fulfils_absentValue haccepted hdefaults (List.mem_of_find?_eq_some hdeclared)
      (List.mem_of_find?_eq_some hfield) hnull).inWidth
  | true =>
    cases habsent : field.absentValue <;> rw [habsent] at hnull <;> cases hnull
    exact Value.inWidth_null

/-- Whatever is stored, and in whichever form, the integers that are read are within their width. -/
theorem Codec.inWidth_of_decodeField {description : TableDescription}
    (hresolve : description.resolve = .ok table) {typeName name : String} {field : FieldSchema}
    (hfield : table.fieldOf? typeName name = some field) {stored : Attribute}
    (hread : decodeField table field stored = .ok value) {number : Number}
    (hshows : value.ShowsInteger table number field.type.element) : number.InWidth := by
  have haccepted := TableDescription.accepted_of_resolve hresolve
  obtain ⟨declared, hdeclared, hfield⟩ := Option.bind_eq_some_iff.mp hfield
  have htype := List.mem_of_find?_eq_some hdeclared
  have hmem := List.mem_of_find?_eq_some hfield
  have hstorable := (haccepted.fields declared htype).storable field hmem
  have hreads := reads_decode haccepted (TableDescription.readsDefaults_of_resolve hresolve)
    (haccepted.allowed htype hmem)
    (fun hbyId => (hstorable.rekeyed (FieldSchema.rekeyById_of_byId hbyId)).1) stored
  rw [← decodeField, hread] at hreads
  have hvalue : value.InWidth table (fun _ => False) field.type.element := by
    cases hnull : value.isNull with
    | false => exact (hreads (.inr hnull)).inWidth
    | true =>
      cases value <;> cases hnull
      exact Value.inWidth_null
  exact (hvalue number hshows).resolve_right id

end Reading

end RecordStore
