import RecordStore.Proofs.Codec.Key
import RecordStore.Proofs.Expression.Search
import RecordStore.Proofs.Store.Page

/-!
# Matching keys

The attributes of a key are written in three ways: with the fields of a record, from the components
of a key, and as the values of a query, which are bound without a declared type. For the values that a
key declares they are the same, so that a query for a key selects the item under the key and no
other.
-/

namespace RecordStore

open Expression (satisfies)

/-! ### Components -/

namespace KeyField

variable {component : KeyField} {value original : Value} {held : Attribute}

/-- The values of a declared component: texts, bytes, and integers that are in its range. -/
inductive Declares (component : KeyField) : Value → Prop where
  | text {text : String} (helement : component.element = .string) : Declares component (.string text)
  | bytes {bytes : List UInt8} (helement : component.element = .binary) :
    Declares component (.binary bytes)
  | integer {number : Int64} (helement : component.element = .integer)
    (hrange : number.toInt32.toInt64 = number) : Declares component (.number (.integer number))
  | long {number : Int64} (helement : component.element = .long) :
    Declares component (.number (.integer number))

/-- A declared value is stored as it is bound. -/
theorem Declares.encode_eq (hdeclares : component.Declares value) :
    component.encode value = .ok value.bound := by
  cases hdeclares with
  | text helement => simp [encode, accepts, helement, Codec.encodeKey, Value.bound]
  | bytes helement => simp [encode, accepts, helement, Codec.encodeKey, Value.bound]
  | integer helement hrange =>
    simp [encode, accepts, helement, Codec.encodeKey, Value.bound, ElementType.isNumeric,
      Number.narrow, Number.toInt64, hrange]
  | long helement =>
    simp [encode, accepts, helement, Codec.encodeKey, Value.bound, ElementType.isNumeric,
      Number.narrow, Number.toInt64]

theorem equal_number_iff (first second : Int64) :
    (Attribute.number (Number.integer first).text).equal (.number (Number.integer second).text) =
        true ↔
      Attribute.number (Number.integer first).text = .number (Number.integer second).text := by
  constructor
  · intro hequal
    have hsame : first.toInt = second.toInt := by
      simpa [Attribute.equal, Attribute.compare?, Number.parse?_text_integer, Number.compare?]
        using hequal
    rw [Int64.toInt_inj.mp hsame]
  · intro hsame
    rw [hsame]
    simp [Attribute.equal, Attribute.compare?, Number.parse?_text_integer, Number.compare?]

/-- What a component is stored as equals a declared value only when it is stored as that value. -/
theorem Declares.equal_iff (hdeclares : component.Declares value)
    (hheld : component.encode original = .ok held) :
    held.equal value.bound = true ↔ held = value.bound := by
  unfold encode accepts at hheld
  cases hdeclares with
  | text helement =>
    cases original <;> simp [helement, Codec.encodeKey, ElementType.isNumeric] at hheld
    subst hheld
    simp [Value.bound, Attribute.equal, Attribute.compare?, compareOfLessAndEq_eq_eq]
  | bytes helement =>
    cases original <;> simp [helement, Codec.encodeKey, ElementType.isNumeric] at hheld
    subst hheld
    simp [Value.bound, Attribute.equal, Attribute.compare?, compareOfLessAndEq_eq_eq]
  | integer helement =>
    cases original <;>
      simp [helement, Codec.encodeKey, ElementType.isNumeric, Number.narrow] at hheld
    subst hheld
    exact equal_number_iff _ _
  | long helement =>
    cases original <;>
      simp [helement, Codec.encodeKey, ElementType.isNumeric, Number.narrow] at hheld
    subst hheld
    exact equal_number_iff _ _

/-- Components are stored like the fields that they name, which must not be null. -/
theorem encode_of_encode {table : TableSchema} (hkey : component.element.isKey = true)
    (hvalue : original.isNull = false)
    (hencode : Codec.encode table .plain (.scalar component.element) original = .ok held) :
    component.encode original = .ok held := by
  unfold encode accepts
  generalize component.element = element at hkey hencode ⊢
  cases original with
  | null => cases hvalue
  | _ => cases element <;> cases hkey <;> first | exact hencode | cases hencode

/-- The key attribute of a stored record is what the field that it names is stored as. -/
theorem exists_encode_of_get?_toItem {table : TableSchema} {record : Record} {item : Item}
    (haccepted : table.Accepted) (hdeclared : component.Declared table.root)
    (hstore : record.toItem table = .ok item) (hget : Item.get? item component.wireName = some held) :
    ∃ original, (component.field, original) ∈ record.fields ∧ original.isNull = false ∧
      component.encode original = .ok held := by
  obtain ⟨field, hfield, hwire, hpersist, htype, hkey⟩ := hdeclared
  have hmem : field ∈ table.root.fields := List.mem_of_find?_eq_some hfield
  have hname : field.name = component.field := by simpa using List.find?_some hfield
  obtain ⟨object, hobject, rfl⟩ := Record.toItem_ok hstore
  obtain ⟨_, _, hmembers⟩ := bind_eq_ok_iff.mp hobject
  obtain ⟨hversion, hrevision⟩ := haccepted.not_reserved hmem hpersist
  have hheld : Item.get? object field.wireName = some held := by
    rw [← hget, ← hwire]
    split
    · rw [Item.get?_set_of_ne _ _ hrevision, Item.get?_set_of_ne _ _ hversion]
    · rw [Item.get?_set_of_ne _ _ hversion]
  cases hset : Entries.find? (Codec.encodeFields table record.fields) field.name with
  | none =>
    rw [Codec.get?_storeMembers_of_unset hmembers haccepted.root_distinct.wireNames hmem hpersist
      hset] at hheld
    cases hheld
  | some store =>
    obtain ⟨original, horiginal, hvalue, rfl⟩ := Codec.exists_of_find?_encodeFields hset
    obtain ⟨stored, hstored, hsame⟩ := Codec.get?_storeMembers hmembers
      haccepted.root_distinct.wireNames hmem hpersist hset
    cases hheld.symm.trans hsame
    rw [Codec.encodeField, haccepted.root_distinct.storage_of_scalar hmem htype, htype] at hstored
    exact ⟨original, hname ▸ horiginal, hvalue, encode_of_encode hkey hvalue hstored⟩

end KeyField

/-! ### Keys of stored records -/

theorem KeyNames.exists_get?_of_keyOf? {keys : KeyNames} {item key : Item}
    (hkey : keys.keyOf? item = some key) {name : String} (hname : name ∈ keys.attributes) :
    ∃ held, Item.get? item name = some held := by
  obtain ⟨entries, hentries, _⟩ := Option.bind_eq_some_iff.mp hkey
  obtain ⟨held, hheld⟩ := mem_entries_of_mapM hentries name hname
  exact ⟨held, mem_of_mapM hentries name held hheld⟩

theorem KeyField.ofRecord_of_mem {component : KeyField} {record : Record} {value : Value}
    (hnames : (Entries.names record.fields).Nodup) (hmem : (component.field, value) ∈ record.fields)
    (hvalue : value.isNull = false) : component.ofRecord record = .ok value := by
  have hget : record.get? component.field = some value := Entries.find?_of_mem hnames hmem
  rw [ofRecord, hget]
  cases value with
  | null => cases hvalue
  | _ => rfl

section Stored

variable {table : TableSchema} {record : Record} {item : Item}

/-- A key can be read from a record that is stored under some key. -/
theorem Record.exists_keyItem {held : Item} (haccepted : table.Accepted)
    (hnames : (Entries.names record.fields).Nodup) (hstore : record.toItem table = .ok item)
    (hheld : (KeyNames.ofSchema table.keys).keyOf? item = some held) :
    ∃ key, table.keyItem record = .ok key := by
  -- Every key attribute comes from a field that is set.
  have hcomponent : ∀ component : KeyField, component.Declared table.root →
      component.wireName ∈ (KeyNames.ofSchema table.keys).attributes →
      ∃ value stored, component.ofRecord record = .ok value ∧ component.encode value = .ok stored := by
    intro component hdeclared hname
    obtain ⟨stored, hstored⟩ := KeyNames.exists_get?_of_keyOf? hheld hname
    obtain ⟨value, hmem, hvalue, hencode⟩ :=
      KeyField.exists_encode_of_get?_toItem haccepted hdeclared hstore hstored
    exact ⟨value, stored, KeyField.ofRecord_of_mem hnames hmem hvalue, hencode⟩
  obtain ⟨hash, storedHash, hhash, hhashEncode⟩ :=
    hcomponent table.keys.hash haccepted.hash List.mem_cons_self
  rw [TableSchema.keyItem, KeySchema.ofRecord, hhash, ok_bind]
  cases hrange : table.keys.range with
  | none =>
    refine ⟨Item.set [] table.keys.hash.wireName storedHash, ?_⟩
    simp only [KeySchema.toItem, hhashEncode, hrange, ok_bind, pure_bind]
    rfl
  | some component =>
    obtain ⟨range, storedRange, hread, hrangeEncode⟩ :=
      hcomponent component (haccepted.range component hrange) (by
        simp [KeyNames.attributes, KeyNames.ofSchema, hrange])
    refine ⟨Item.set (Item.set [] table.keys.hash.wireName storedHash) component.wireName
      storedRange, ?_⟩
    simp only [KeySchema.toItem, hhashEncode, hrange, hread, hrangeEncode, ok_bind, pure_bind]
    rfl

/-- A record is stored under the key that is read from it, and under none when no key can be
read. -/
theorem Record.keyOf?_eq_keyItem (haccepted : table.Accepted)
    (hnames : (Entries.names record.fields).Nodup) (hstore : record.toItem table = .ok item) :
    (KeyNames.ofSchema table.keys).keyOf? item = (table.keyItem record).toOption := by
  cases hkey : table.keyItem record with
  | ok key => exact Record.keyOf?_toItem haccepted rfl hstore hkey
  | error error =>
    by_contra hheld
    obtain ⟨held, hheld⟩ := Option.ne_none_iff_exists'.mp hheld
    obtain ⟨key, hread⟩ := Record.exists_keyItem haccepted hnames hstore hheld
    cases hkey.symm.trans hread

end Stored

/-! ### Keys that are looked for -/

/-- A key whose components are values that the table declares for them. -/
structure TableSchema.DeclaresKey (table : TableSchema) (key : RecordKey) : Prop where
  hash : table.keys.hash.Declares key.hash
  range : Option.Rel KeyField.Declares table.keys.range key.range
  /-- Where both components are one attribute they are the same value. -/
  shared : ∀ component, table.keys.range = some component →
    component.wireName = table.keys.hash.wireName → key.range = some key.hash

namespace TableSchema.DeclaresKey

variable {table : TableSchema} {key : RecordKey}

theorem exists_toItem (hdeclares : table.DeclaresKey key) :
    ∃ stored, table.keys.toItem key = .ok stored := by
  obtain ⟨hhash, hrange, _⟩ := hdeclares
  unfold KeySchema.toItem
  rw [hhash.encode_eq, ok_bind]
  generalize table.keys.range = component at hrange ⊢
  generalize key.range = value at hrange ⊢
  cases hrange with
  | none => exact ⟨_, rfl⟩
  | some hvalue =>
    simp only [hvalue.encode_eq]
    exact ⟨_, rfl⟩

/-- An item has a declared key when its key attributes are the components as they are bound. -/
theorem keyOf?_iff (hdeclares : table.DeclaresKey key) {stored item : Item}
    (hstored : table.keys.toItem key = .ok stored) :
    (KeyNames.ofSchema table.keys).keyOf? item = some stored ↔
      Item.get? item table.keys.hash.wireName = some key.hash.bound ∧
        ∀ component value, table.keys.range = some component → key.range = some value →
          Item.get? item component.wireName = some value.bound := by
  rw [← KeyNames.hasKey_iff (KeySchema.keyOf?_toItem hstored), Item.hasKey_iff]
  obtain ⟨hash, hhash, hcases⟩ := KeySchema.toItem_ok hstored
  cases hdeclares.hash.encode_eq.symm.trans hhash
  rcases hcases with ⟨hnone, rfl⟩ | ⟨component, value, range, hsome, hvalue, hrange, rfl⟩
  · simp [hnone]
  · have hdeclared : component.Declares value := by
      have hrel := hdeclares.range
      rw [hsome, hvalue] at hrel
      cases hrel with
      | some hdeclared => exact hdeclared
    cases hdeclared.encode_eq.symm.trans hrange
    have hlast := Item.get?_set_self [(table.keys.hash.wireName, key.hash.bound)]
      component.wireName value.bound
    constructor
    · intro hheld
      refine ⟨?_, fun other found hother hfound => ?_⟩
      · by_cases hsame : component.wireName = table.keys.hash.wireName
        · cases hvalue.symm.trans (hdeclares.shared component hsome hsame)
          rw [← hsame]
          exact hheld _ _ (Entries.mem_of_find? hlast)
        · apply hheld
          apply Entries.mem_of_find?
          rw [← Item.get?, Item.get?_set_of_ne _ _ hsame]
          simp [Item.get?, Entries.find?]
      · cases hsome.symm.trans hother
        cases hvalue.symm.trans hfound
        exact hheld _ _ (Entries.mem_of_find? hlast)
    · rintro ⟨hfirst, hsecond⟩ name held hmem
      rcases Entries.mem_insert hmem with hmem | hmem
      · cases hmem
        exact hsecond component value hsome hvalue
      · cases List.mem_singleton.mp hmem
        exact hfirst

end TableSchema.DeclaresKey

/-! ### Queries for a key -/

/-- Among stored records a query for a declared key selects the one under the key. -/
theorem RecordQuery.selects_iff {query : RecordQuery} {table : TableSchema} {key : RecordKey}
    {record : Record} {stored item : Item} (haccepted : table.Accepted)
    (hhash : query.hash = key.hash) (hrange : query.range = key.range.map (.compare .equal))
    (hdeclares : table.DeclaresKey key) (hstored : table.keys.toItem key = .ok stored)
    (hstore : record.toItem table = .ok item) :
    query.selects table.keys item = true ↔
      (KeyNames.ofSchema table.keys).keyOf? item = some stored := by
  have hcomponent : ∀ (component : KeyField) value, component.Declared table.root →
      component.Declares value → ((Test.compare .equal value).holds
        (Item.get? item component.wireName) = true ↔
          Item.get? item component.wireName = some value.bound) := by
    intro component value hdeclared hvalue
    cases hget : Item.get? item component.wireName with
    | none => simp [Test.holds]
    | some held =>
      obtain ⟨original, _, _, hencode⟩ :=
        KeyField.exists_encode_of_get?_toItem haccepted hdeclared hstore hget
      rw [Option.some_inj]
      exact hvalue.equal_iff hencode
  rw [hdeclares.keyOf?_iff hstored, RecordQuery.selects, hhash, hrange, Bool.and_eq_true,
    hcomponent _ _ haccepted.hash hdeclares.hash]
  refine and_congr_right' ?_
  have hvalues := hdeclares.range
  have hcomponents := haccepted.range
  generalize table.keys.range = components at hvalues hcomponents ⊢
  generalize key.range = value at hvalues ⊢
  cases hvalues with
  | none => simp
  | @some component value hvalue =>
    simp [hcomponent component value (hcomponents component rfl) hvalue]

/-- A query of the table for one key. -/
structure RecordQuery.IsFor (query : RecordQuery) (key : RecordKey) : Prop where
  hash : query.hash = key.hash
  range : query.range = key.range.map (.compare .equal)
  index : query.search.index = none
  filter : query.search.filter = none
  projection : query.search.projection = []
  start : query.search.start = none
  limit : StoredTable.IsLimit query.search.limit

end RecordStore
