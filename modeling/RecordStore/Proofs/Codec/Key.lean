import RecordStore.Proofs.Codec.Object
import RecordStore.Proofs.Store.Table

/-!
# Keys of stored records

A stored record holds the attributes of its key, and a table finds the key again by them.
-/

namespace RecordStore

/-! ### Components -/

/-- A component of a key is stored like the field that it names. -/
theorem KeyField.encode_eq {table : TableSchema} {key : KeyField} {value : Value}
    {stored : Attribute} (hencode : key.encode value = .ok stored) :
    Codec.encode table .plain (.scalar key.element) value = .ok stored := by
  unfold encode at hencode
  split at hencode
  · rename_i haccepts
    unfold accepts at haccepts
    generalize key.element = element at haccepts hencode ⊢
    split at haccepts
    · exact hencode
    · exact hencode
    · cases element <;> first | exact hencode | cases haccepts
    · cases haccepts
  · cases hencode

theorem KeyField.ofRecord_ok {key : KeyField} {record : Record} {value : Value}
    (hread : key.ofRecord record = .ok value) :
    record.get? key.field = some value ∧ value.isNull = false := by
  unfold ofRecord at hread
  split at hread
  · cases hread
  · cases hread
  · rename_i held hnotNull hheld
    cases hread
    refine ⟨hheld, ?_⟩
    cases value with
    | null => exact absurd rfl hnotNull
    | _ => rfl

/-- A stored record holds each component of its key, or of that of a record with the same
fields. -/
theorem KeyField.exists_get?_toItem {table : TableSchema} {key : KeyField}
    {record original : Record} {item : Item} {value : Value} (haccepted : table.Accepted)
    (hdeclared : key.Declared table.root) (hfields : record.fields = original.fields)
    (hstore : record.toItem table = .ok item) (hread : key.ofRecord original = .ok value) :
    ∃ stored, Codec.encode table .plain (.scalar key.element) value = .ok stored ∧
      Item.get? item key.wireName = some stored := by
  obtain ⟨field, hfield, hwire, hpersist, htype, _⟩ := hdeclared
  obtain ⟨hheld, hnotNull⟩ := KeyField.ofRecord_ok hread
  have hmem : field ∈ table.root.fields := List.mem_of_find?_eq_some hfield
  have hname : field.name = key.field := by simpa using List.find?_some hfield
  have hrecord : record.get? field.name = some value := by
    rw [Record.get?, hfields, hname]
    exact hheld
  obtain ⟨stored, hstored, hget⟩ := Record.get?_toItem haccepted hstore hmem hpersist hrecord hnotNull
  rw [Codec.encodeField, haccepted.root_distinct.storage_of_scalar hmem htype, htype] at hstored
  exact ⟨stored, hstored, hwire ▸ hget⟩

/-! ### Whole keys -/

/-- A key is one attribute, or two of which the range component wins where they share a name. -/
theorem KeySchema.toItem_ok {keys : KeySchema} {recordKey : RecordKey} {key : Item}
    (hkey : keys.toItem recordKey = .ok key) :
    ∃ hash, keys.hash.encode recordKey.hash = .ok hash ∧
      ((keys.range = none ∧ key = [(keys.hash.wireName, hash)]) ∨
        ∃ component value range, keys.range = some component ∧ recordKey.range = some value ∧
          component.encode value = .ok range ∧
          key = Item.set [(keys.hash.wireName, hash)] component.wireName range) := by
  unfold toItem at hkey
  obtain ⟨hash, hhash, hkey⟩ := bind_eq_ok_iff.mp hkey
  refine ⟨hash, hhash, ?_⟩
  split at hkey
  · rename_i component value hcomponent hvalue
    obtain ⟨range, hrange, hdone⟩ := bind_eq_ok_iff.mp hkey
    cases hdone
    exact .inr ⟨component, value, range, hcomponent, hvalue, hrange, rfl⟩
  · rename_i hnone _
    cases hkey
    exact .inl ⟨hnone, rfl⟩
  · cases hkey
  · cases hkey

/-- An item that holds the attributes of a key has that key. -/
theorem KeySchema.keyOf?_of_hasKey {keys : KeySchema} {recordKey : RecordKey} {key item : Item}
    (hkey : keys.toItem recordKey = .ok key) (hheld : item.hasKey key = true) :
    (KeyNames.ofSchema keys).keyOf? item = some key := by
  rw [Item.hasKey_iff] at hheld
  have hget : ∀ name value, Item.get? key name = some value → Item.get? item name = some value :=
    fun name value hfind => hheld name value (Entries.mem_of_find? hfind)
  obtain ⟨hash, _, ⟨hnone, rfl⟩ | ⟨component, value, range, hsome, _, _, rfl⟩⟩ :=
    KeySchema.toItem_ok hkey
  · have hhash := hget keys.hash.wireName hash (by simp [Item.get?, Entries.find?])
    simp [KeyNames.keyOf?, KeyNames.attributes, KeyNames.ofSchema, hnone, hhash, Item.ofEntries,
      Entries.sorted, Entries.insert]
  · have hrange := hget component.wireName range (Item.get?_set_self _ _ _)
    by_cases hsame : component.wireName = keys.hash.wireName
    · rw [hsame] at hrange ⊢
      simp [KeyNames.keyOf?, KeyNames.attributes, KeyNames.ofSchema, hsome, hsame, hrange,
        Item.ofEntries, Item.set, Entries.sorted, Entries.insert]
    · have hhash := hget keys.hash.wireName hash (by
        rw [Item.get?_set_of_ne _ _ hsame]
        simp [Item.get?, Entries.find?])
      simp [KeyNames.keyOf?, KeyNames.attributes, KeyNames.ofSchema, hsome, hhash, hrange,
        Item.ofEntries, Item.set, Entries.sorted, Entries.insert]

/-- What a key is stored as is a whole key. -/
theorem KeySchema.keyOf?_toItem {keys : KeySchema} {recordKey : RecordKey} {key : Item}
    (hkey : keys.toItem recordKey = .ok key) : (KeyNames.ofSchema keys).keyOf? key = some key := by
  have hascending : Entries.Ascending key := by
    obtain ⟨hash, _, ⟨_, rfl⟩ | ⟨component, value, range, _, _, _, rfl⟩⟩ := KeySchema.toItem_ok hkey
    · exact List.pairwise_singleton _ _
    · exact Entries.Ascending.insert (List.pairwise_singleton _ _) _ _
  apply KeySchema.keyOf?_of_hasKey hkey
  exact Item.hasKey_iff.mpr fun name value hmem => Entries.find?_of_mem hascending.nodup hmem

/-- Tables accept the keys of records as they are. -/
theorem KeySchema.exactKey_eq {keys : KeySchema} {recordKey : RecordKey} {key : Item}
    {stored : StoredTable} (hkey : keys.toItem recordKey = .ok key)
    (hkeys : stored.keys = .ofSchema keys) : stored.exactKey key = .ok key := by
  apply StoredTable.exactKey_of_keyOf?
  rw [hkeys, KeySchema.keyOf?_toItem hkey]

theorem TableSchema.keyItem_ok {table : TableSchema} {record : Record} {key : Item}
    (hkey : table.keyItem record = .ok key) :
    ∃ recordKey, table.keys.ofRecord record = .ok recordKey ∧
      table.keys.toItem recordKey = .ok key :=
  bind_eq_ok_iff.mp hkey

theorem KeySchema.ofRecord_ok {keys : KeySchema} {record : Record} {recordKey : RecordKey}
    (hread : keys.ofRecord record = .ok recordKey) :
    keys.hash.ofRecord record = .ok recordKey.hash ∧
      ∀ component, keys.range = some component → ∃ value, recordKey.range = some value ∧
        component.ofRecord record = .ok value := by
  unfold ofRecord at hread
  obtain ⟨hash, hhash, hread⟩ := bind_eq_ok_iff.mp hread
  split at hread
  · rename_i hnone
    cases hread
    refine ⟨hhash, fun component hsome => ?_⟩
    rw [hnone] at hsome
    cases hsome
  · rename_i range hsome
    obtain ⟨value, hvalue, hdone⟩ := bind_eq_ok_iff.mp hread
    cases hdone
    refine ⟨hhash, fun component hcomponent => ⟨value, rfl, ?_⟩⟩
    rw [hsome] at hcomponent
    cases hcomponent
    exact hvalue

/-- A stored record is found under the key of every record with the same fields. -/
theorem Record.keyOf?_toItem {table : TableSchema} {record original : Record} {item key : Item}
    (haccepted : table.Accepted) (hfields : record.fields = original.fields)
    (hstore : record.toItem table = .ok item) (hkey : table.keyItem original = .ok key) :
    (KeyNames.ofSchema table.keys).keyOf? item = some key := by
  obtain ⟨recordKey, hread, htoItem⟩ := TableSchema.keyItem_ok hkey
  obtain ⟨hhashRead, hrangeRead⟩ := KeySchema.ofRecord_ok hread
  refine KeySchema.keyOf?_of_hasKey htoItem (Item.hasKey_iff.mpr ?_)
  have hcomponent : ∀ (component : KeyField) value stored, component.Declared table.root →
      component.ofRecord original = .ok value → component.encode value = .ok stored →
      Item.get? item component.wireName = some stored := by
    intro component value stored hdeclared hvalue hencode
    obtain ⟨other, hother, hget⟩ :=
      KeyField.exists_get?_toItem haccepted hdeclared hfields hstore hvalue
    rw [KeyField.encode_eq hencode] at hother
    cases hother
    exact hget
  obtain ⟨hash, hhash, hcases⟩ := KeySchema.toItem_ok htoItem
  have hhashHeld := hcomponent _ _ _ haccepted.hash hhashRead hhash
  rcases hcases with ⟨_, rfl⟩ | ⟨component, value, range, hsome, hvalue, hrange, rfl⟩
  · intro name stored hmem
    cases List.mem_singleton.mp hmem
    exact hhashHeld
  · intro name stored hmem
    rcases Entries.mem_insert hmem with hmem | hmem
    · cases hmem
      obtain ⟨other, hother, hread⟩ := hrangeRead component hsome
      cases hvalue.symm.trans hother
      exact hcomponent _ _ _ (haccepted.range component hsome) hread hrange
    · cases List.mem_singleton.mp hmem
      exact hhashHeld

end RecordStore
