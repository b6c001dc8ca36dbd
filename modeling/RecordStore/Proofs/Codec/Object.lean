import RecordStore.Proofs.Item
import RecordStore.Proofs.Numeral
import RecordStore.Proofs.Outcome
import RecordStore.Proofs.Schema.Accepted
import RecordStore.Codec.Attribute

/-!
# Attributes of stored objects

A stored object holds the persisted fields that are set, each under the name of its attribute, and
nothing else.
-/

namespace RecordStore

variable {table : TableSchema}

/-- The attributes by which fields are stored, where they are stored at all. -/
def wireNames (fields : List FieldSchema) : List String :=
  (fields.filter FieldSchema.persist).map FieldSchema.wireName

theorem mem_wireNames {fields : List FieldSchema} {field : FieldSchema} (hmem : field ∈ fields)
    (hpersist : field.persist = true) : field.wireName ∈ wireNames fields :=
  List.mem_map_of_mem (List.mem_filter.mpr ⟨hmem, hpersist⟩)

theorem wireNames_cons_of_persist {fields : List FieldSchema} {field : FieldSchema}
    (hpersist : field.persist = true) :
    wireNames (field :: fields) = field.wireName :: wireNames fields := by
  rw [wireNames, List.filter_cons_of_pos hpersist]
  rfl

theorem wireNames_cons_of_not_persist {fields : List FieldSchema} {field : FieldSchema}
    (hpersist : field.persist = false) : wireNames (field :: fields) = wireNames fields := by
  rw [wireNames, List.filter_cons_of_neg (by rw [hpersist]; exact Bool.noConfusion)]
  rfl

namespace Codec

variable {held : List (String × (FieldSchema → Except Error Attribute))}
  {fields : List FieldSchema} {item : Item}

theorem storeMembers_cons_persist {field : FieldSchema}
    {store : FieldSchema → Except Error Attribute} (hheld : Entries.find? held field.name = some store)
    (hpersist : field.persist = true) (hstore : storeMembers held (field :: fields) = .ok item) :
    ∃ value others, store field = .ok value ∧ storeMembers held fields = .ok others ∧
      item = Item.set others field.wireName value := by
  rw [storeMembers, hheld] at hstore
  simp only [hpersist, if_true] at hstore
  obtain ⟨value, hvalue, hstore⟩ := bind_eq_ok_iff.mp hstore
  obtain ⟨others, hothers, hdone⟩ := bind_eq_ok_iff.mp hstore
  cases hdone
  exact ⟨value, others, hvalue, hothers, rfl⟩

theorem storeMembers_cons_skip {field : FieldSchema}
    (hskip : Entries.find? held field.name = none ∨ field.persist = false) :
    storeMembers held (field :: fields) = storeMembers held fields := by
  rw [storeMembers]
  rcases hskip with hheld | hpersist
  · rw [hheld]
  · split
    · simp only [hpersist, Bool.false_eq_true, if_false]
    · rfl

/-- Whether a field is among those to be stored. -/
theorem storeMembers_cases (held : List (String × (FieldSchema → Except Error Attribute)))
    (field : FieldSchema) :
    (∃ store, Entries.find? held field.name = some store ∧ field.persist = true) ∨
      (Entries.find? held field.name = none ∨ field.persist = false) := by
  cases hheld : Entries.find? held field.name with
  | none => exact .inr (.inl rfl)
  | some store =>
    cases hpersist : field.persist with
    | false => exact .inr (.inr rfl)
    | true => exact .inl ⟨store, rfl, rfl⟩

theorem get?_storeMembers_of_ne {name : String} (hstore : storeMembers held fields = .ok item)
    (hne : ∀ field ∈ fields, field.persist = true → Entries.find? held field.name ≠ none →
      field.wireName ≠ name) : Item.get? item name = none := by
  induction fields generalizing item with
  | nil =>
    cases hstore
    rfl
  | cons field rest ih =>
    have hrest := fun other hmem => hne other (List.mem_cons_of_mem _ hmem)
    rcases storeMembers_cases held field with ⟨store, hheld, hpersist⟩ | hskip
    · obtain ⟨value, others, _, hothers, rfl⟩ := storeMembers_cons_persist hheld hpersist hstore
      have hset : Entries.find? held field.name ≠ none := by
        rw [hheld]
        exact Option.some_ne_none store
      rw [Item.get?_set_of_ne _ _ (hne field List.mem_cons_self hpersist hset)]
      exact ih hothers hrest
    · rw [storeMembers_cons_skip hskip] at hstore
      exact ih hstore hrest

theorem get?_storeMembers_of_unset {field : FieldSchema} (hstore : storeMembers held fields = .ok item)
    (hdistinct : (wireNames fields).Nodup) (hmem : field ∈ fields) (hpersist : field.persist = true)
    (hunset : Entries.find? held field.name = none) : Item.get? item field.wireName = none := by
  refine get?_storeMembers_of_ne hstore fun other hother hotherPersist hset hsame => ?_
  have hequal : other = field := List.inj_on_of_nodup_map hdistinct
    (List.mem_filter.mpr ⟨hother, hotherPersist⟩) (List.mem_filter.mpr ⟨hmem, hpersist⟩) hsame
  rw [hequal] at hset
  exact hset hunset

theorem get?_storeMembers {field : FieldSchema} {store : FieldSchema → Except Error Attribute}
    (hstore : storeMembers held fields = .ok item) (hdistinct : (wireNames fields).Nodup)
    (hmem : field ∈ fields) (hpersist : field.persist = true)
    (hheld : Entries.find? held field.name = some store) :
    ∃ value, store field = .ok value ∧ Item.get? item field.wireName = some value := by
  induction fields generalizing item with
  | nil => cases hmem
  | cons first rest ih =>
    rcases storeMembers_cases held first with ⟨other, hfirst, hfirstPersist⟩ | hskip
    · obtain ⟨value, others, hvalue, hothers, rfl⟩ :=
        storeMembers_cons_persist hfirst hfirstPersist hstore
      rw [wireNames_cons_of_persist hfirstPersist] at hdistinct
      obtain ⟨hfresh, hdistinct⟩ := List.nodup_cons.mp hdistinct
      rcases List.mem_cons.mp hmem with rfl | hmem
      · rw [hheld] at hfirst
        cases hfirst
        exact ⟨value, hvalue, Item.get?_set_self _ _ _⟩
      · obtain ⟨stored, hstored, hget⟩ := ih hothers hdistinct hmem
        refine ⟨stored, hstored, ?_⟩
        rw [Item.get?_set_of_ne _ _, hget]
        intro hsame
        rw [hsame] at hfresh
        exact hfresh (mem_wireNames hmem hpersist)
    · rw [storeMembers_cons_skip hskip] at hstore
      have hother : field ≠ first := by
        rintro rfl
        rcases hskip with hnone | htransient
        · rw [hheld] at hnone
          cases hnone
        · rw [hpersist] at htransient
          cases htransient
      have hrest : (wireNames rest).Nodup := by
        cases hfirstPersist : first.persist with
        | false =>
          rw [wireNames_cons_of_not_persist hfirstPersist] at hdistinct
          exact hdistinct
        | true =>
          rw [wireNames_cons_of_persist hfirstPersist] at hdistinct
          exact (List.nodup_cons.mp hdistinct).2
      exact ih hstore hrest ((List.mem_cons.mp hmem).resolve_left hother)

theorem ascending_storeMembers (hstore : storeMembers held fields = .ok item) :
    Entries.Ascending item := by
  induction fields generalizing item with
  | nil =>
    cases hstore
    exact .nil
  | cons field rest ih =>
    rcases storeMembers_cases held field with ⟨store, hheld, hpersist⟩ | hskip
    · obtain ⟨value, others, _, hothers, rfl⟩ := storeMembers_cons_persist hheld hpersist hstore
      exact (ih hothers).insert _ _
    · rw [storeMembers_cons_skip hskip] at hstore
      exact ih hstore

/-! ### Fields that are set -/

theorem encodeFields_cons {name : String} {value : Value} {rest : List (String × Value)}
    (hvalue : value.isNull = false) :
    encodeFields table ((name, value) :: rest) =
      (name, fun field => encodeField table field value) :: encodeFields table rest := by
  rw [encodeFields]
  · rfl
  · rintro rfl
    cases hvalue

theorem encodeFields_cons_null {name : String} {rest : List (String × Value)} :
    encodeFields table ((name, .null) :: rest) = encodeFields table rest := by
  rw [encodeFields]

theorem find?_encodeFields {entries : List (String × Value)} {name : String} {value : Value}
    (hfind : Entries.find? entries name = some value) (hvalue : value.isNull = false) :
    Entries.find? (encodeFields table entries) name =
      some fun field => encodeField table field value := by
  induction entries with
  | nil => cases hfind
  | cons entry rest ih =>
    obtain ⟨key, other⟩ := entry
    rw [Entries.find?_cons] at hfind
    cases hother : other.isNull with
    | true =>
      have hnull : other = .null := by
        cases other <;> first | rfl | cases hother
      subst hnull
      rw [encodeFields_cons_null]
      split at hfind
      · cases hfind
        cases hvalue
      · exact ih hfind
    | false =>
      rw [encodeFields_cons hother, Entries.find?_cons]
      split
      · rename_i hkey
        rw [if_pos hkey] at hfind
        cases hfind
        rfl
      · rename_i hkey
        rw [if_neg hkey] at hfind
        exact ih hfind

theorem exists_of_find?_encodeFields {entries : List (String × Value)} {name : String}
    {store : FieldSchema → Except Error Attribute}
    (hfind : Entries.find? (encodeFields table entries) name = some store) :
    ∃ value, (name, value) ∈ entries ∧ value.isNull = false ∧
      store = fun field => encodeField table field value := by
  induction entries with
  | nil => cases hfind
  | cons entry rest ih =>
    obtain ⟨key, other⟩ := entry
    cases hother : other.isNull with
    | true =>
      have hnull : other = .null := by
        cases other <;> first | rfl | cases hother
      subst hnull
      rw [encodeFields_cons_null] at hfind
      obtain ⟨value, hmem, hvalue⟩ := ih hfind
      exact ⟨value, List.mem_cons_of_mem _ hmem, hvalue⟩
    | false =>
      rw [encodeFields_cons hother, Entries.find?_cons] at hfind
      split at hfind
      · rename_i hkey
        cases hfind
        rw [← hkey]
        exact ⟨other, List.mem_cons_self, hother, rfl⟩
      · obtain ⟨value, hmem, hvalue⟩ := ih hfind
        exact ⟨value, List.mem_cons_of_mem _ hmem, hvalue⟩

end Codec

/-- Only fields that ask for it are stored by id. -/
theorem FieldSchema.rekeyById_of_byId {field : FieldSchema}
    (hbyId : field.storage.byId.isSome = true) : field.rekeyById = true := by
  by_contra hnot
  rw [FieldSchema.storage, if_neg hnot] at hbyId
  cases hbyId

/-! ### Stored records -/

/-- Scalars are stored plainly. -/
theorem FieldsDistinct.storage_of_scalar {counters : CounterNames} {fields : List FieldSchema}
    {field : FieldSchema} {element : ElementType} (hdistinct : FieldsDistinct counters fields)
    (hmem : field ∈ fields) (htype : field.type = .scalar element) : field.storage = .plain := by
  have hstorable := hdistinct.storable field hmem
  have hscalar : field.type.kind = .scalar := by rw [htype]; rfl
  have hcompress : field.compress = false := by
    cases hcompress : field.compress with
    | false => rfl
    | true => exact absurd hscalar (hstorable.compressed hcompress)
  have hrekey : field.rekeyById = false := by
    cases hrekey : field.rekeyById with
    | false => rfl
    | true =>
      have hlist := (hstorable.rekeyed hrekey).1
      rw [hscalar] at hlist
      cases hlist
  rw [FieldSchema.storage, hcompress, hrekey]
  rfl

theorem TableSchema.Accepted.root_mem (haccepted : table.Accepted) : table.root ∈ table.types := by
  obtain ⟨root, hroot⟩ := haccepted.root
  rw [TableSchema.root, hroot]
  exact List.mem_of_find?_eq_some hroot

theorem TableSchema.Accepted.root_distinct (haccepted : table.Accepted) :
    FieldsDistinct table.counters table.root.fields :=
  haccepted.fields _ haccepted.root_mem

/-- No persisted field is stored in the place of a counter. -/
theorem TableSchema.Accepted.not_reserved {field : FieldSchema} (haccepted : table.Accepted)
    (hmem : field ∈ table.root.fields) (hpersist : field.persist = true) :
    table.versionAttribute ≠ field.wireName ∧ table.revisionAttribute ≠ field.wireName := by
  obtain ⟨hversion, hrevision⟩ := haccepted.root_distinct.reserved field hmem hpersist
  exact ⟨hversion.symm, hrevision.symm⟩

/-- Only records of the root type are stored. -/
theorem Record.typeName_of_toItem {record : Record} {item : Item}
    (hstore : record.toItem table = .ok item) : record.typeName = table.rootType := by
  by_contra hne
  rw [Record.toItem, if_pos hne] at hstore
  cases hstore

/-- A stored record is its object, stamped with the version and on some tables the revision. -/
theorem Record.toItem_ok {record : Record} {item : Item} (hstore : record.toItem table = .ok item) :
    ∃ object, Codec.encodeObject table table.root record = .ok object ∧
      item = if table.optimisticLocking then
          Item.set (Item.set object table.versionAttribute (Codec.versionAttribute table.version))
            table.revisionAttribute (Codec.revisionAttribute record.revision)
        else Item.set object table.versionAttribute (Codec.versionAttribute table.version) := by
  unfold Record.toItem at hstore
  by_cases htype : record.typeName ≠ table.rootType
  · rw [if_pos htype] at hstore
    cases hstore
  · rw [if_neg htype] at hstore
    obtain ⟨object, hobject, hstore⟩ := bind_eq_ok_iff.mp hstore
    refine ⟨object, hobject, ?_⟩
    dsimp only at hstore
    split at hstore <;> rename_i hlocking
    · cases hstore
      rw [if_pos hlocking]
    · cases hstore
      rw [if_neg hlocking]

theorem TableSchema.Accepted.root_eq (haccepted : table.Accepted) :
    table.type? table.rootType = some table.root := by
  obtain ⟨root, hroot⟩ := haccepted.root
  rw [TableSchema.root, hroot, Option.getD_some]

/-- Under the attributes of its fields, a stored record holds what its object does. -/
theorem Record.get?_toItem_eq {record : Record} {item : Item} (haccepted : table.Accepted)
    (hstore : record.toItem table = .ok item) :
    ∃ object, Codec.encodeObject table table.root record = .ok object ∧
      ∀ field ∈ table.root.fields, field.persist = true →
        Item.get? item field.wireName = Item.get? object field.wireName := by
  obtain ⟨object, hobject, rfl⟩ := Record.toItem_ok hstore
  refine ⟨object, hobject, fun field hmem hpersist => ?_⟩
  obtain ⟨hversion, hrevision⟩ := haccepted.not_reserved hmem hpersist
  split
  · rw [Item.get?_set_of_ne _ _ hrevision, Item.get?_set_of_ne _ _ hversion]
  · rw [Item.get?_set_of_ne _ _ hversion]

/-- A persisted field of a stored record is found under its attribute. -/
theorem Record.get?_toItem {record : Record} {item : Item} {field : FieldSchema} {value : Value}
    (haccepted : table.Accepted) (hstore : record.toItem table = .ok item)
    (hmem : field ∈ table.root.fields) (hpersist : field.persist = true)
    (hfield : record.get? field.name = some value) (hvalue : value.isNull = false) :
    ∃ stored, Codec.encodeField table field value = .ok stored ∧
      Item.get? item field.wireName = some stored := by
  obtain ⟨object, hobject, hget⟩ := Record.get?_toItem_eq haccepted hstore
  obtain ⟨_, _, hmembers⟩ := bind_eq_ok_iff.mp hobject
  obtain ⟨stored, hstored, hheld⟩ := Codec.get?_storeMembers hmembers
    haccepted.root_distinct.wireNames hmem hpersist (Codec.find?_encodeFields hfield hvalue)
  exact ⟨stored, hstored, (hget field hmem hpersist).trans hheld⟩

/-- On tables with optimistic locking a stored record carries its revision. -/
theorem Record.get?_revision_toItem {record : Record} {item : Item}
    (hlocking : table.optimisticLocking = true) (hstore : record.toItem table = .ok item) :
    Item.get? item table.revisionAttribute = some (Codec.revisionAttribute record.revision) := by
  obtain ⟨object, _, rfl⟩ := Record.toItem_ok hstore
  rw [if_pos hlocking]
  exact Item.get?_set_self _ _ _

/-! ### Stored revisions -/

theorem TableSchema.storedRevision_of_number {item : Item} {revision : Int64} {text : String}
    (hget : Item.get? item table.revisionAttribute = some (.number text))
    (hread : Decimal.readInt64? (String.ofList (Text.trim text.toList)) = some revision) :
    Codec.storedRevision table item = .ok revision := by
  unfold Codec.storedRevision
  rw [hget]
  simp only [hread]

/-- What is written of a revision is read as the revision. -/
theorem TableSchema.storedRevision_of_get? {item : Item} {revision : Int64}
    (hget : Item.get? item table.revisionAttribute = some (Codec.revisionAttribute revision)) :
    Codec.storedRevision table item = .ok revision := by
  refine TableSchema.storedRevision_of_number hget ?_
  rw [Text.trim_toString_int, Decimal.readInt64?_toString]

end RecordStore
