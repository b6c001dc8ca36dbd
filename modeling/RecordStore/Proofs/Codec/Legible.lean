import RecordStore.Proofs.Codec.Projection

/-!
# What is stored plainly can be read

Storing a value plainly checks it against its type, so that what is stored can be read, however
badly the value is typed. Compressing it checks nothing, and the text of a float is not followed
here: both are left out.
-/

namespace RecordStore

/-! ### Tables without compression -/

/-- Whether the numbers of a type, if any, are integers. -/
def ElementType.isIntegral : ElementType → Bool
  | .float | .double => false
  | _ => true

def ValueType.isIntegral (type : ValueType) : Bool :=
  type.element.all ElementType.isIntegral

structure TableSchema.StoresPlainly (table : TableSchema) : Prop where
  uncompressed : ∀ type ∈ table.types, ∀ field ∈ type.fields, field.persist = true →
    field.compress = false
  integral : ∀ type ∈ table.types, ∀ field ∈ type.fields, field.type.isIntegral = true

namespace Codec

variable {table : TableSchema} {element : ElementType} {type : ValueType} {value : Value}
  {byId : Option String} {stored : Attribute}

/-- However a value is stored, if it is not compressed, what is stored of it can be read. -/
def Legible (table : TableSchema) (value : Value) : Prop :=
  ∀ byId type stored, type.isIntegral = true → encode table ⟨false, byId⟩ type value = .ok stored →
    ∃ read, decode table ⟨false, byId⟩ type stored = .ok read

/-! ### Numbers and sets -/

theorem exists_numberOfText (hintegral : element.isIntegral = true)
    (hnumeric : element.isNumeric = true) (number : Number) :
    ∃ read, numberOfText (number.narrow element).text element = .ok read := by
  cases element with
  | integer | long => exact ⟨_, numberOfText_text⟩
  | float | double => cases hintegral
  | string | boolean | binary | object => cases hnumeric

theorem mem_withoutRepeats {α : Type} [BEq α] {elements : List α} {element : α}
    (hmem : element ∈ withoutRepeats elements) : element ∈ elements := by
  have hfold : ∀ rest kept : List α,
      element ∈ rest.foldl (fun kept element =>
        if kept.contains element then kept else kept ++ [element]) kept →
      element ∈ kept ∨ element ∈ rest := by
    intro rest
    induction rest with
    | nil => exact fun kept hkept => .inl hkept
    | cons first rest ih =>
      intro kept hmem
      rw [List.foldl_cons] at hmem
      rcases ih _ hmem with hkept | hrest
      · split at hkept
        · exact .inl hkept
        · rcases List.mem_append.mp hkept with hkept | hfirst
          · exact .inl hkept
          · exact .inr (List.mem_singleton.mp hfirst ▸ List.mem_cons_self)
      · exact .inr (List.mem_cons_of_mem _ hrest)
  exact (hfold elements [] hmem).resolve_left (List.not_mem_nil)

theorem exists_decode_numberSet {elements : List Value} (hintegral : element.isIntegral = true)
    (hnumeric : element.isNumeric = true) {numbers : List Number}
    (hnumbers : elements.mapM (numberElement element) = .ok numbers) :
    ∃ read, decode table .plain ⟨.set, some element⟩
      (.numberSet ((withoutRepeats numbers).map Number.text)) = .ok read := by
  have htexts : ∀ text ∈ (withoutRepeats numbers).map Number.text,
      ∃ read, numberOfText text element = .ok read := by
    intro text hmem
    obtain ⟨number, hnumber, rfl⟩ := List.mem_map.mp hmem
    obtain ⟨member, _, hmember⟩ :=
      exists_mem_of_forall₂ (mapM_ok hnumbers) number (mem_withoutRepeats hnumber)
    cases member with
    | number wide =>
      cases hmember
      exact exists_numberOfText hintegral hnumeric wide
    | _ => cases hmember
  obtain ⟨read, hread⟩ := exists_mapM htexts
  refine ⟨.set (read.map .number), ?_⟩
  change (do
    return Value.set ((← ((withoutRepeats numbers).map Number.text).mapM
      fun text => numberOfText text element).map .number)) = _
  rw [hread]
  rfl

/-- A set that is stored can be read. -/
theorem exists_decode_of_encodeSet {elements : List Value} (hintegral : element.isIntegral = true)
    (hstore : encodeSet element elements = .ok stored) :
    ∃ read, decode table .plain ⟨.set, some element⟩ stored = .ok read := by
  unfold encodeSet at hstore
  split at hstore
  · cases hstore
    exact ⟨_, rfl⟩
  · split at hstore
    · obtain ⟨texts, _, hdone⟩ := bind_eq_ok_iff.mp hstore
      cases hdone
      exact ⟨_, rfl⟩
    · obtain ⟨members, _, hdone⟩ := bind_eq_ok_iff.mp hstore
      cases hdone
      exact ⟨_, rfl⟩
    · split at hstore
      · rename_i hnumeric
        obtain ⟨numbers, hnumbers, hdone⟩ := bind_eq_ok_iff.mp hstore
        cases hdone
        exact exists_decode_numberSet hintegral hnumeric hnumbers
      · cases hstore

/-! ### Objects -/

/-- The fields of an object that is stored can be read, whatever else the item holds. -/
theorem exists_readMembers_of_storeObject {object : TypeSchema} {fields : List (String × Value)}
    {members item : Item} {start : Record} (haccepted : table.Accepted)
    (hplain : table.StoresPlainly) (hobject : object ∈ table.types)
    (hfields : ∀ name value, (name, value) ∈ fields → Legible table value)
    (hstore : storeObject object (Entries.names fields) (encodeFields table fields) = .ok members)
    (hitem : ∀ field ∈ object.fields, field.persist = true →
      Item.get? item field.wireName = Item.get? members field.wireName) :
    ∃ record, readMembers (decodeFields table item) start object.fields = .ok record := by
  obtain ⟨_, _, hmembers⟩ := bind_eq_ok_iff.mp hstore
  have hwire := (haccepted.fields object hobject).wireNames
  refine exists_readMembers fun field hmem => ?_
  rw [readMember, find?_decodeFields]
  cases hpersist : field.persist with
  | false => cases Item.get? item field.wireName <;> exact ⟨_, rfl⟩
  | true =>
    rw [hitem field hmem hpersist]
    cases hfind : Entries.find? (encodeFields table fields) field.name with
    | none =>
      rw [get?_storeMembers_of_unset hmembers hwire hmem hpersist hfind]
      exact ⟨_, rfl⟩
    | some store =>
      obtain ⟨stored, hstored, hget⟩ := get?_storeMembers hmembers hwire hmem hpersist hfind
      obtain ⟨value, hvalue, _, rfl⟩ := exists_of_find?_encodeFields hfind
      have hstorage : field.storage = ⟨false, field.storage.byId⟩ :=
        congrArg (Storage.mk · _) (hplain.uncompressed object hobject field hmem hpersist)
      have hencode : encode table field.storage field.type value = .ok stored := hstored
      rw [hstorage] at hencode
      obtain ⟨read, hread⟩ := hfields field.name value hvalue _ _ _
        (hplain.integral object hobject field hmem) hencode
      rw [hget]
      refine ⟨read, ?_⟩
      rw [← hread, ← hstorage]
      rfl

theorem exists_decode_object {typeName : String} {object : TypeSchema}
    {fields : List (String × Value)} {members : Item} (haccepted : table.Accepted)
    (hplain : table.StoresPlainly) (hdeclared : table.type? typeName = some object)
    (hfields : ∀ name value, (name, value) ∈ fields → Legible table value)
    (hstore : storeObject object (Entries.names fields) (encodeFields table fields) = .ok members) :
    ∃ read, decode table .plain (.scalar (.object typeName)) (.map members) = .ok read := by
  obtain ⟨record, hrecord⟩ := @exists_readMembers_of_storeObject table object fields members members
    (.empty typeName) haccepted hplain (List.mem_of_find?_eq_some hdeclared) hfields hstore
    fun _ _ _ => rfl
  rw [decode_object_eq hdeclared, hrecord]
  exact ⟨_, rfl⟩

/-- Objects that are stored by their ids can be read. -/
theorem exists_decodeEntries_of_encodeById {typeName : String} {object : TypeSchema}
    {items : List Value} {entries : List (String × Attribute)} (haccepted : table.Accepted)
    (hplain : table.StoresPlainly) (hdeclared : table.type? typeName = some object)
    (hitems : ∀ typeName fields revision, .object typeName fields revision ∈ items →
      ∀ name value, (name, value) ∈ fields → Legible table value)
    (hstore : encodeById table type object items = .ok entries) :
    ∀ entry ∈ entries,
      ∃ read, decode table .plain (.scalar (.object typeName)) entry.2 = .ok read := by
  induction items generalizing entries with
  | nil =>
    cases hstore
    exact fun _ hmem => nomatch hmem
  | cons item rest ih =>
    cases item with
    | object actual fields revision =>
      rw [encodeById] at hstore
      obtain ⟨id, _, hstore⟩ := bind_eq_ok_iff.mp hstore
      obtain ⟨members, hmembers, hstore⟩ := bind_eq_ok_iff.mp hstore
      obtain ⟨others, hothers, hdone⟩ := bind_eq_ok_iff.mp hstore
      cases hdone
      refine List.forall_mem_cons.mpr ⟨?_, ?_⟩
      · exact exists_decode_object haccepted hplain hdeclared
          (hitems actual fields revision List.mem_cons_self) hmembers
      · exact ih (fun actual fields revision hmem =>
          hitems actual fields revision (List.mem_cons_of_mem _ hmem)) hothers
    | _ => cases hstore

/-- What is stored by ids is an absent value or a list. -/
theorem encode_byId_ok {name : String}
    (hstore : encode table ⟨false, some name⟩ type value = .ok stored) :
    ∃ typeName object, type.element = some (.object typeName) ∧
      table.type? typeName = some object ∧
      (value = .null ∧ stored = .map [] ∨ ∃ items entries, value = .list items ∧
        encodeById table type object items = .ok entries ∧
          stored = .map (Item.ofEntries entries)) := by
  obtain ⟨kind, _ | element⟩ := type
  · cases value <;> cases hstore
  cases element with
  | object typeName =>
    cases value with
    | null =>
      have hbind : (do
          let _ ← table.requireType typeName
          return Attribute.map []) = .ok stored := hstore
      obtain ⟨object, hobject, hdone⟩ := bind_eq_ok_iff.mp hbind
      cases hdone
      exact ⟨typeName, object, rfl, TableSchema.requireType_eq_ok_iff.mp hobject, .inl ⟨rfl, rfl⟩⟩
    | list items =>
      have hbind : (do
          let object ← table.requireType typeName
          let entries ← encodeById table ⟨kind, some (.object typeName)⟩ object items
          return Attribute.map (Item.ofEntries entries)) = .ok stored := hstore
      obtain ⟨object, hobject, hrest⟩ := bind_eq_ok_iff.mp hbind
      obtain ⟨entries, hentries, hdone⟩ := bind_eq_ok_iff.mp hrest
      cases hdone
      exact ⟨typeName, object, rfl, TableSchema.requireType_eq_ok_iff.mp hobject,
        .inr ⟨items, entries, rfl, hentries, rfl⟩⟩
    | _ =>
      have hbind : (do
          let _ ← table.requireType typeName
          throw (Error.codec (.unexpectedShape _ _))) = Except.ok stored := hstore
      obtain ⟨_, _, hdone⟩ := bind_eq_ok_iff.mp hbind
      cases hdone
  | _ => cases value <;> cases hstore

/-! ### Values by their shapes -/

theorem exists_decode_byId {name : String} {entries : Item} (helement : type.element = some element)
    (hentries : ∀ entry ∈ entries,
      ∃ read, decode table .plain (.scalar element) entry.2 = .ok read) :
    ∃ read, decode table ⟨false, some name⟩ type (.map entries) = .ok read := by
  obtain ⟨kind, element⟩ := type
  cases helement
  obtain ⟨reads, hreads⟩ := Entries.exists_mapM fun name value hmem => hentries (name, value) hmem
  refine ⟨.list ((reads.map Prod.snd).mergeSort idPrecedes), ?_⟩
  change (do
    let reads ← decodeEntries table _ entries
    return Value.list ((reads.map Prod.snd).mergeSort idPrecedes)) = _
  rw [decodeEntries_eq_mapM, hreads]
  rfl

/-- Only lists are stored by ids, so that any other value is legible when it is stored plainly. -/
theorem legible_of_plain (hvalue : ∀ items, value ≠ .list items)
    (hreads : ∀ kind element stored, element.isIntegral = true →
      encode table .plain ⟨kind, some element⟩ value = .ok stored →
      ∃ read, decode table .plain ⟨kind, some element⟩ stored = .ok read) :
    Legible table value := by
  intro byId type stored hintegral hstore
  cases byId with
  | some name =>
    obtain ⟨_, _, helement, _, ⟨_, rfl⟩ | ⟨items, _, hitems, _⟩⟩ := encode_byId_ok hstore
    · exact exists_decode_byId helement fun _ hmem => nomatch hmem
    · exact absurd hitems (hvalue items)
  | none =>
    obtain ⟨kind, _ | element⟩ := type
    · cases value <;> cases hstore
    · exact hreads kind element stored hintegral hstore

theorem exists_decode_items {items : List Value} {written : List Attribute}
    (hintegral : element.isIntegral = true) (hitems : ∀ item ∈ items, Legible table item)
    (hstore : items.mapM (encode table .plain (.scalar element)) = .ok written) :
    ∃ read, decode table .plain ⟨.list, some element⟩ (.list written) = .ok read := by
  obtain ⟨reads, hreads⟩ := @exists_mapM _ _ (decode table .plain (.scalar element)) written
    fun stored hmem => by
      obtain ⟨item, hitem, hencode⟩ := exists_mem_of_forall₂ (mapM_ok hstore) stored hmem
      exact hitems item hitem none _ _ hintegral hencode
  exact ⟨_, (decode_list_eq _).trans (by rw [hreads]; rfl)⟩

theorem legible_number (number : Number) : Legible table (.number number) := by
  refine legible_of_plain (fun _ => nofun) fun kind element stored hintegral hstore => ?_
  have hnumeric : kind = .scalar ∧ element.isNumeric = true ∧
      stored = .number (number.narrow element).text := by
    cases kind <;> cases element <;> cases hstore <;> exact ⟨rfl, rfl, rfl⟩
  obtain ⟨rfl, hnumeric, rfl⟩ := hnumeric
  obtain ⟨read, hread⟩ := exists_numberOfText hintegral hnumeric number
  exact ⟨_, (decode_number _ hnumeric).trans (by rw [hread]; rfl)⟩

theorem legible_map {entries : List (String × Value)}
    (hentries : ∀ name value, (name, value) ∈ entries → Legible table value) :
    Legible table (.map entries) := by
  refine legible_of_plain (fun _ => nofun) fun kind element stored hintegral hstore => ?_
  cases kind with
  | map =>
    obtain ⟨written, hwritten, rfl⟩ :=
      map_eq_ok_iff.mp ((encode_map_eq entries).symm.trans hstore)
    obtain ⟨reads, hreads⟩ := @Entries.exists_mapM _ _ (decode table .plain (.scalar element))
      (Item.ofEntries written) fun name value hmem => by
        obtain ⟨⟨key, held⟩, hheld, hentry⟩ :=
          exists_mem_of_forall₂ (mapM_ok hwritten) _ (Entries.mem_sorted hmem)
        obtain ⟨_, hencode, hsame⟩ := map_eq_ok_iff.mp hentry
        cases hsame
        exact hentries key held hheld none _ _ hintegral hencode
    exact ⟨_, (decode_map_eq _).trans (by rw [hreads]; rfl)⟩
  | _ => cases element <;> cases hstore

theorem legible_set {elements : List Value}
    (helements : ∀ element ∈ elements, Legible table element) : Legible table (.set elements) := by
  refine legible_of_plain (fun _ => nofun) fun kind element stored hintegral hstore => ?_
  cases kind with
  | list =>
    obtain ⟨written, hwritten, rfl⟩ :=
      map_eq_ok_iff.mp ((encode_list_eq elements).symm.trans hstore)
    exact exists_decode_items hintegral helements hwritten
  | set => exact exists_decode_of_encodeSet hintegral hstore
  | _ => cases element <;> cases hstore

section Objects

variable (haccepted : table.Accepted) (hplain : table.StoresPlainly)
include haccepted hplain

theorem legible_object {typeName : String} {fields : List (String × Value)} {revision : Int64}
    (hfields : ∀ name value, (name, value) ∈ fields → Legible table value) :
    Legible table (.object typeName fields revision) := by
  refine legible_of_plain (fun _ => nofun) fun kind element stored _ hstore => ?_
  obtain ⟨rfl, expected, rfl⟩ : kind = .scalar ∧ ∃ expected, element = .object expected := by
    cases kind <;> cases element <;> first | cases hstore | exact ⟨rfl, _, rfl⟩
  obtain rfl := typeName_of_encode hstore
  obtain ⟨object, hobject, hobjectStore⟩ :=
    bind_eq_ok_iff.mp ((encode_object_eq typeName fields revision).symm.trans hstore)
  obtain ⟨members, hmembers, rfl⟩ := map_eq_ok_iff.mp hobjectStore
  exact exists_decode_object haccepted hplain (TableSchema.requireType_eq_ok_iff.mp hobject) hfields
    hmembers

theorem legible_list {items : List Value} (hitems : ∀ item ∈ items, Legible table item)
    (hfields : ∀ typeName fields revision, .object typeName fields revision ∈ items →
      ∀ name value, (name, value) ∈ fields → Legible table value) :
    Legible table (.list items) := by
  intro byId type stored hintegral hstore
  cases byId with
  | some name =>
    obtain ⟨typeName, object, helement, hdeclared, hstored⟩ := encode_byId_ok hstore
    rcases hstored with ⟨hnull, _⟩ | ⟨others, entries, hothers, hentries, rfl⟩
    · cases hnull
    · cases hothers
      have hreads :=
        exists_decodeEntries_of_encodeById haccepted hplain hdeclared hfields hentries
      exact exists_decode_byId helement fun entry hmem => hreads entry (Entries.mem_sorted hmem)
  | none =>
    obtain ⟨kind, _ | element⟩ := type
    · cases hstore
    cases kind with
    | list =>
      obtain ⟨written, hwritten, rfl⟩ :=
        map_eq_ok_iff.mp ((encode_list_eq items).symm.trans hstore)
      exact exists_decode_items hintegral hitems hwritten
    | set => exact exists_decode_of_encodeSet hintegral hstore
    | _ => cases element <;> cases hstore

end Objects

/-- Every value is legible in a table that stores plainly. -/
theorem legible (haccepted : table.Accepted) (hplain : table.StoresPlainly) (value : Value) :
    Legible table value := by
  match value with
  | .null | .boolean _ | .string _ | .binary _ =>
    refine legible_of_plain (fun _ => nofun) fun kind element stored _ hstore => ?_
    cases kind <;> cases element <;> cases hstore <;> exact ⟨_, rfl⟩
  | .number number => exact legible_number number
  | .object _ fields _ =>
    exact legible_object haccepted hplain fun _ held hheld => legible haccepted hplain held
  | .list items =>
    refine legible_list haccepted hplain (fun item hitem => legible haccepted hplain item) ?_
    exact fun _ fields _ hitem _ held hheld => legible haccepted hplain held
  | .set elements =>
    exact legible_set fun element helement => legible haccepted hplain element
  | .map entries => exact legible_map fun _ held hheld => legible haccepted hplain held
termination_by sizeOf value
decreasing_by
  · have hless := Entries.sizeOf_lt_of_mem hheld
    simp only [Value.object.sizeOf_spec]
    omega
  · have hless := List.sizeOf_lt_of_mem hitem
    simp only [Value.list.sizeOf_spec]
    omega
  · have hless := Entries.sizeOf_lt_of_mem hheld
    have hobject := List.sizeOf_lt_of_mem hitem
    simp only [Value.list.sizeOf_spec, Value.object.sizeOf_spec] at hobject ⊢
    omega
  · have hless := List.sizeOf_lt_of_mem helement
    simp only [Value.set.sizeOf_spec]
    omega
  · have hless := Entries.sizeOf_lt_of_mem hheld
    simp only [Value.map.sizeOf_spec]
    omega

end Codec

/-! ### Records -/

/-- What is stored of a record can be read again, whatever its fields hold. -/
theorem Record.exists_ofItem {table : TableSchema} {description : TableDescription}
    {record : Record} {item : Item} (hresolve : description.resolve = .ok table)
    (hplain : table.StoresPlainly) (hstore : record.toItem table = .ok item) :
    ∃ read, Record.ofItem table item = .ok read := by
  have haccepted := TableDescription.accepted_of_resolve hresolve
  obtain ⟨object, hobject, hitem⟩ := Record.toItem_ok hstore
  have hfields : ∀ field ∈ table.root.fields, field.persist = true →
      Item.get? item field.wireName = Item.get? object field.wireName := by
    intro field hmem hpersist
    obtain ⟨hversion, hrevision⟩ := haccepted.not_reserved hmem hpersist
    rw [hitem]
    split
    · rw [Item.get?_set_of_ne _ _ hrevision, Item.get?_set_of_ne _ _ hversion]
    · rw [Item.get?_set_of_ne _ _ hversion]
  obtain ⟨members, hmembers⟩ := @Codec.exists_readMembers_of_storeObject table table.root
    record.fields object item (.empty table.root.name) haccepted hplain haccepted.root_mem
    (fun _ value _ => Codec.legible haccepted hplain value) hobject hfields
  have hdecode : Codec.decodeObject table table.root item = .ok members := hmembers
  rw [Record.ofItem, hdecode, ok_bind]
  split
  · rename_i hlocking
    rw [TableSchema.storedRevision_of_get? (Record.get?_revision_toItem hlocking hstore)]
    exact ⟨_, rfl⟩
  · exact ⟨members, rfl⟩

/-! ### A compressed log -/

def logDescription (compress : Bool) : TableDescription where
  name := "logs"
  namespaceName := ""
  rootType := "Log"
  hashKey := "id"
  rangeKey := none
  version := 1
  optimisticLocking := false
  migrations := false
  versionAttribute := none
  revisionAttribute := none
  types := [
    ⟨"Log", [
      ⟨"id", none, .scalar, some .string, none, true, true, false, false, false, false, false⟩,
      ⟨"lines", none, .list, some .string, none, true, true, false, false, compress, false,
        false⟩]⟩]
  indexes := []

/-- A log with a line that is no text. -/
def numberedLog : Record :=
  ⟨"Log", [("id", .string "p"), ("lines", .list [.number (.integer 5)])], 0⟩

/-- The log is stored only where its lines are compressed, and then it cannot be read. -/
example : ∀ compress, ((logDescription compress).resolve.toOption.map fun table =>
    (numberedLog.toItem table).toOption.map fun item => (Record.ofItem table item).isOk) =
      some (if compress then some false else none) := by
  decide +kernel

end RecordStore
