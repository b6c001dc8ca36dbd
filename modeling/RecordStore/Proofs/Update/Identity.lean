import RecordStore.Proofs.Client.Projection
import RecordStore.Proofs.Codec.Key
import RecordStore.Proofs.Locking.Monotone
import RecordStore.Proofs.Update.Reading

/-!
# Updates are read as they are viewed

An item is written by saving a record, by an update of a key that held none, and by updates of what
was written before. All of them leave attributes of the form in which they are written.

An item that was written is read and updated by changes that last. What is stored then is read as the
view of the update shows it, its revision included, however the changes are combined and whichever of
their forms the update takes: fields written whole, entries and amounts written relative to what is
stored, elements added to a set or taken out of it.
-/

namespace RecordStore

open Expression (Action Clauses Compiled applyUpdate)

variable {table : TableSchema}

/-! ### Records of declared objects -/

/-- A record that was read holds objects of the declared types. -/
theorem Record.objectsDeclared_of_isShaped (record : Record) (hshaped : record.IsShaped table) :
    record.ObjectsDeclared table := by
  have hobject : ∀ typeName held, record.HoldsObject table typeName held →
      held.typeName = typeName ∧ held.IsShaped table := by
    rintro typeName held ⟨name, field, hfield, _, htype, hheld⟩
    obtain ⟨_, hfulfils⟩ := hshaped name _ field hheld hfield
    rw [htype] at hfulfils
    refine ⟨?_, Record.isShaped_of_fulfils hfulfils⟩
    generalize hvalue : held.toValue = value at hfulfils
    cases hfulfils with
    | object => exact (Value.object.inj hvalue).1
    | _ => cases hvalue
  refine .intro (fun typeName held hheld => (hobject typeName held hheld).1) ?_
  intro typeName held hheld
  exact objectsDeclared_of_isShaped held (hobject typeName held hheld).2
termination_by sizeOf record.fields
decreasing_by
  obtain ⟨_, _, _, _, _, hheld⟩ := hheld
  have hless := Entries.sizeOf_lt_of_mem (Entries.mem_of_find? hheld)
  simp only [Record.toValue, Value.object.sizeOf_spec] at hless
  omega

/-- An object that is stored holds objects of the declared types. -/
theorem Record.objectsDeclared_of_encodeObject (haccepted : table.Accepted) (record : Record)
    {object : TypeSchema} {members : Item} (htype : table.type? record.typeName = some object)
    (hstore : Codec.encodeObject table object record = .ok members) :
    record.ObjectsDeclared table := by
  have hfields := haccepted.fields object (List.mem_of_find?_eq_some htype)
  obtain ⟨_, _, hmembers⟩ := bind_eq_ok_iff.mp hstore
  have hobject : ∀ typeName held, record.HoldsObject table typeName held →
      held.typeName = typeName ∧ ∃ declared inner, table.type? held.typeName = some declared ∧
        Codec.encodeObject table declared held = .ok inner := by
    rintro typeName held ⟨name, field, hfield, hpersist, hfieldType, hheld⟩
    rw [TableSchema.fieldOf?, htype, Option.bind_some] at hfield
    obtain ⟨hmem, rfl⟩ := (TypeSchema.field?_eq_some_iff hfields.names).mp hfield
    obtain ⟨stored, hencode, _⟩ := Codec.get?_storeMembers hmembers hfields.wireNames hmem hpersist
      (Codec.find?_encodeFields hheld rfl)
    rw [Codec.encodeField, hfields.storage_of_scalar hmem hfieldType, hfieldType] at hencode
    have hsame : held.typeName = typeName := Codec.typeName_of_encode hencode
    refine ⟨hsame, ?_⟩
    rw [Record.toValue, ← hsame] at hencode
    obtain ⟨declared, hdeclared, hinner⟩ :=
      bind_eq_ok_iff.mp ((Codec.encode_object_eq _ _ _).symm.trans hencode)
    obtain ⟨inner, hinner, _⟩ := map_eq_ok_iff.mp hinner
    exact ⟨declared, inner, TableSchema.requireType_eq_ok_iff.mp hdeclared, hinner⟩
  refine .intro (fun typeName held hheld => (hobject typeName held hheld).1) ?_
  intro typeName held hheld
  obtain ⟨_, declared, inner, hdeclared, hinner⟩ := hobject typeName held hheld
  exact objectsDeclared_of_encodeObject haccepted held hdeclared hinner
termination_by sizeOf record.fields
decreasing_by
  obtain ⟨_, _, _, _, _, hheld⟩ := hheld
  have hless := Entries.sizeOf_lt_of_mem (Entries.mem_of_find? hheld)
  simp only [Record.toValue, Value.object.sizeOf_spec] at hless
  omega

/-! ### Items that were written -/

/-- The item that a compiled update leaves of another one, which is the same if it writes nothing. -/
def Expression.Compiled.applyTo (compiled : Compiled) (item : Item) : Except Fault Item :=
  match compiled.update with
  | some expression => applyUpdate item expression compiled.bindings
  | none => .ok item

/-- Items as they come to be stored: by saving a record, from the key of an update of a new item, and
by updates of records that were read or saved. -/
inductive Item.Written (table : TableSchema) : Item → Prop where
  | saved {record : Record} {item : Item} (save : record.toItem table = .ok item) : Written table item
  | keyed {key : RecordKey} {item : Item} (key : table.keys.toItem key = .ok item) :
    Written table item
  | updated {item other stored : Item} {base : Record} {update later : Update}
    {changes : List FieldChange} {compiled : Expression.Compiled} (written : Written table item)
    (known : Record.ofItem table other = .ok base ∨ base.toItem table = .ok other)
    (start : Update.start table base = .ok update)
    (changed : update.changeAll table changes = .ok later)
    (compile : later.compile table = .ok compiled) (apply : compiled.applyTo item = .ok stored) :
    Written table stored

/-- An item is regular for the root type of its table. -/
def TableSchema.IsRegular (table : TableSchema) (item : Item) : Prop :=
  (Attribute.map item).IsRegular table (.scalar (.object table.rootType))

section Written

variable {item stored : Item}

theorem TableSchema.isRegular_iff (haccepted : table.Accepted) :
    table.IsRegular item ↔ ∀ field ∈ table.root.fields, field.persist = true →
      field.storage = .plain → field.IsRegular table (Item.get? item field.wireName) := by
  constructor
  · intro hregular field hfield hpersist hplain value hget
    cases hregular with
    | intro _ fields => exact fields _ _ _ _ _ rfl rfl haccepted.root_eq hfield hpersist hplain hget
  · intro hfields
    refine .intro (fun _ helement hwhole => ?_) ?_
    · cases helement
      rcases hwhole with hwhole | hwhole <;> cases hwhole
    · rintro _ object _ field value ⟨⟩ ⟨⟩ hobject hfield hpersist hplain hget
      cases haccepted.root_eq.symm.trans hobject
      exact hfields field hfield hpersist hplain value hget

theorem Record.isRegular_toItem {record : Record} (haccepted : table.Accepted)
    (hstore : record.toItem table = .ok item) : table.IsRegular item := by
  have hroot := haccepted.root_eq
  obtain ⟨object, hobject, hget⟩ := Record.get?_toItem_eq haccepted hstore
  have htype := Record.typeName_of_toItem hstore
  obtain ⟨typeName, fields, revision⟩ := record
  cases htype
  have hencode : Codec.encode table .plain (.scalar (.object table.rootType))
      (.object table.rootType fields revision) = .ok (.map object) := by
    rw [Codec.encode_object_eq, TableSchema.requireType_eq_ok_iff.mpr hroot]
    exact congrArg (Except.map Attribute.map) hobject
  have hregular : table.IsRegular object := Codec.isRegular_encode haccepted _ hencode
  refine (TableSchema.isRegular_iff haccepted).mpr fun field hfield hpersist hplain => ?_
  rw [hget field hfield hpersist]
  exact (TableSchema.isRegular_iff haccepted).mp hregular field hfield hpersist hplain

/-- What a key stores of one of its components is regular. -/
theorem KeyField.isRegular_encode {key : KeyField} {value : Value} {field : FieldSchema}
    (haccepted : table.Accepted) (hdeclared : key.Declared table.root)
    (hencode : key.encode value = .ok encoded) (hfield : field ∈ table.root.fields)
    (hpersist : field.persist = true) (hwire : field.wireName = key.wireName) :
    encoded.IsRegular table field.type := by
  obtain ⟨declared, hdeclared, hsame, hdeclaredPersist, htype, _⟩ := hdeclared
  have hequal := List.inj_on_of_nodup_map haccepted.root_distinct.wireNames
    (List.mem_filter.mpr ⟨hfield, hpersist⟩)
    (List.mem_filter.mpr ⟨List.mem_of_find?_eq_some hdeclared, hdeclaredPersist⟩)
    (hwire.trans hsame.symm)
  rw [hequal, htype]
  exact Codec.isRegular_encode haccepted value (KeyField.encode_eq hencode)

theorem KeySchema.isRegular_toItem {key : RecordKey} (haccepted : table.Accepted)
    (hkey : table.keys.toItem key = .ok item) : table.IsRegular item := by
  refine (TableSchema.isRegular_iff haccepted).mpr fun field hfield hpersist _ value hget => ?_
  obtain ⟨hash, hhash, ⟨_, rfl⟩ | ⟨component, part, range, hcomponent, _, hrange, rfl⟩⟩ :=
    KeySchema.toItem_ok hkey
  · obtain ⟨hwire, rfl⟩ := Prod.mk.inj (List.mem_singleton.mp (Entries.mem_of_find? hget))
    exact KeyField.isRegular_encode haccepted haccepted.hash hhash hfield hpersist hwire
  · by_cases hwire : component.wireName = field.wireName
    · rw [← hwire, Item.get?_set_self] at hget
      cases hget
      exact KeyField.isRegular_encode haccepted (haccepted.range component hcomponent) hrange hfield
        hpersist hwire.symm
    · rw [Item.get?_set_of_ne _ _ hwire] at hget
      obtain ⟨hwire, rfl⟩ := Prod.mk.inj (List.mem_singleton.mp (Entries.mem_of_find? hget))
      exact KeyField.isRegular_encode haccepted haccepted.hash hhash hfield hpersist hwire

/-- Updates keep items regular. -/
theorem Update.isRegular_applyTo {description : TableDescription} {base : Record}
    {update later : Update} {changes : List FieldChange} {compiled : Expression.Compiled}
    (hresolve : description.resolve = .ok table) (hbase : base.ObjectsDeclared table)
    (hstart : start table base = .ok update) (hchanges : update.changeAll table changes = .ok later)
    (hcompile : later.compile table = .ok compiled) (happly : compiled.applyTo item = .ok stored)
    (hitem : table.IsRegular item) : table.IsRegular stored := by
  have haccepted := TableDescription.accepted_of_resolve hresolve
  obtain ⟨hbaseObject, hfits⟩ := start_fits hstart
  obtain ⟨hsame, hfits⟩ := changeAll_fits hfits hchanges
  rw [hbaseObject] at hsame
  unfold Expression.Compiled.applyTo at happly
  split at happly
  · rename_i expression hupdate
    obtain ⟨actions, hparse, hactions⟩ := bind_eq_ok_iff.mp happly
    obtain ⟨_, _, _, _, _, htidy, _⟩ := parse_compile hresolve hstart hchanges hcompile hupdate
    obtain ⟨hleaves, _⟩ :=
      leaves_compile hresolve hstart hchanges hcompile hupdate hparse hactions
    have htype := rootType_of_start hstart
    unfold TableSchema.IsRegular at hitem ⊢
    rw [← htype] at hitem ⊢
    refine FieldMutation.isRegular_fields haccepted (htype.symm ▸ haccepted.root_eq) hbase
      (hsame ▸ hfits.mutations) (fun name mutation hfind => ?_) hleaves hitem
    exact FieldMutation.keepsRegular haccepted (FieldMutation.Distinct.of_find? htidy.distinct hfind)
  · cases happly
    exact hitem

/-- Every item that was written is regular. -/
theorem Item.Written.isRegular {description : TableDescription}
    (hresolve : description.resolve = .ok table) (hitem : Item.Written table item) :
    table.IsRegular item := by
  have haccepted := TableDescription.accepted_of_resolve hresolve
  induction hitem with
  | saved hstore => exact Record.isRegular_toItem haccepted hstore
  | keyed hkey => exact KeySchema.isRegular_toItem haccepted hkey
  | updated _ hknown hstart hchanges hcompile happly ih =>
    refine Update.isRegular_applyTo hresolve ?_ hstart hchanges hcompile happly ih
    rcases hknown with hread | hstore
    · exact Record.objectsDeclared_of_isShaped _ (Record.isShaped_of_ofItem hresolve hread)
    · obtain ⟨object, hobject, _⟩ := Record.get?_toItem_eq haccepted hstore
      refine Record.objectsDeclared_of_encodeObject haccepted _ ?_ hobject
      rw [Record.typeName_of_toItem hstore]
      exact haccepted.root_eq

end Written

/-! ### Texts of compressed parts -/

variable {description : TableDescription} {item stored : Item} {base : Record}
  {first update : Update} {changes : List FieldChange} {compiled : Compiled}

/-- The texts of the compressed parts of an object are the same at every revision. -/
theorem Compresses.of_revision {typeName : String} {fields : List (String × Value)}
    {revision other : Int64} {json : Json}
    (hwithin : Compresses table .plain (.object typeName fields revision) json) :
    Compresses table .plain (.object typeName fields other) json := by
  cases hwithin with
  | whole compressed => cases compressed
  | field declared known persist mem within => exact .field declared known persist mem within

/-- In a table without compressed fields nothing is compressed. -/
theorem not_compresses {storage : Storage} {value : Value} {json : Json}
    (hplain : ∀ type ∈ table.types, ∀ field ∈ type.fields, field.compress = false)
    (hstorage : storage.compressed = false) : ¬ Compresses table storage value json := by
  intro hwithin
  induction hwithin with
  | whole hcompressed => cases hcompressed.symm.trans hstorage
  | item _ _ _ ih => exact ih rfl
  | entry _ _ ih => exact ih rfl
  | field hdeclared hknown _ _ _ ih =>
    exact ih (hplain _ (List.mem_of_find?_eq_some hdeclared) _ (List.mem_of_find?_eq_some hknown))

/-! ### Updates of items that were written -/

namespace Update

/-- The revision of an item after an update of a record: the next one if something was written. -/
theorem storedRevision_of_applyTo (haccepted : table.Accepted)
    (hlocking : table.optimisticLocking = true) (hcompile : update.compile table = .ok compiled)
    (happly : compiled.applyTo item = .ok stored)
    (hheld : Codec.storedRevision table item = .ok update.object.base.revision) :
    Codec.storedRevision table stored = .ok (if compiled.update.isSome
      then update.object.base.revision + 1 else update.object.base.revision) := by
  obtain ⟨⟨⟨⟩, builder⟩, hrun, hdone⟩ := bind_eq_ok_iff.mp hcompile
  cases hdone
  unfold Compiled.applyTo at happly
  split at happly
  · rename_i expression hwrites
    obtain ⟨user, _, hreads, ⟨version, test, hversion, htest, _, rfl⟩, huser⟩ :=
      reads_append (ObjectUpdate.adds_compile haccepted _)
        (adds_counters_any hlocking _) hrun hwrites
    rw [hwrites]
    exact TableSchema.storedRevision_of_get? (get?_of_counters hreads hversion htest
      (fun action hmem => (huser action hmem).2) hwrites happly)
  · rename_i hnothing
    cases happly
    rw [hnothing]
    exact hheld

/-- What is viewed is the view of the object, at the next revision if something is written. -/
theorem view_eq {viewed : Record} (hcompile : update.compile table = .ok compiled)
    (hview : update.object.view table = .ok viewed)
    (hrevision : viewed.revision = update.object.base.revision) :
    update.view table = .ok { viewed with
      revision := if table.optimisticLocking && compiled.update.isSome
        then update.object.base.revision + 1 else update.object.base.revision } := by
  rw [view, hview, ok_bind, writes_eq hcompile, ← hrevision]
  cases table.optimisticLocking with
  | false => rfl
  | true => cases compiled.update <;> rfl

/-- The clauses of an update that writes nothing are none. -/
theorem exists_silent_clauses (haccepted : table.Accepted)
    (htype : update.object.base.typeName = table.rootType)
    (hcompile : update.compile table = .ok compiled) (hnothing : compiled.update = none) :
    ∃ user, FieldMutation.objectClauses table table.root update.object.base []
      update.object.mutations = .ok user ∧ user.actions = [] := by
  obtain ⟨⟨⟨⟩, builder⟩, hrun, hdone⟩ := bind_eq_ok_iff.mp (writes_eq hcompile)
  rw [hnothing] at hdone
  obtain ⟨user, huser, hreads⟩ :=
    (ObjectUpdate.adds_compile_root haccepted htype).run_ok hrun
  refine ⟨user, huser, ?_⟩
  by_contra hne
  rw [← Ne, ← hreads.hasUpdates] at hne
  cases hne.symm.trans (Except.ok.inj hdone)

/-- Each field is left as its change leaves it, also by an update that writes nothing. -/
theorem leaves_applyTo (hresolve : description.resolve = .ok table)
    (hstart : start table base = .ok first) (hchanges : first.changeAll table changes = .ok update)
    (hcompile : update.compile table = .ok compiled) (happly : compiled.applyTo item = .ok stored) :
    ∀ field ∈ table.root.fields, field.persist = true →
      FieldMutation.LeavesField table [] base update.object.mutations field
        (Item.get? item field.wireName) (Item.get? stored field.wireName) := by
  unfold Compiled.applyTo at happly
  split at happly
  · rename_i expression hwrites
    obtain ⟨actions, hparse, hactions⟩ := bind_eq_ok_iff.mp happly
    exact (leaves_compile hresolve hstart hchanges hcompile hwrites hparse hactions).1
  · rename_i hnothing
    cases happly
    have haccepted := TableDescription.accepted_of_resolve hresolve
    obtain ⟨hfirst, hfits⟩ := start_fits hstart
    have hsame := (changeAll_fits hfits hchanges).1.trans hfirst
    obtain ⟨user, huser, hsilent⟩ := exists_silent_clauses haccepted
      (hsame ▸ rootType_of_start hstart) hcompile hnothing
    rw [hsame] at huser
    intro field hfield hpersist
    obtain ⟨part, hpart, hat⟩ := FieldMutation.actionsAt_objectClauses haccepted.root_distinct
      (tidy_of_start hstart hchanges).distinct.names huser hfield hpersist
    refine ⟨part, hpart, (Clauses.leaves_of_nil ?_).mpr rfl⟩
    rw [← hat, Clauses.actionsAt, hsilent]
    rfl

/-- A record that was read from an item that was written is shown there. -/
theorem shown_of_ofItem (hresolve : description.resolve = .ok table)
    (hwritten : Item.Written table item) (hread : Record.ofItem table item = .ok base)
    (htype : base.typeName = table.rootType) : base.Shown table table.root item := by
  have haccepted := TableDescription.accepted_of_resolve hresolve
  obtain ⟨object, hobject, hfields, _⟩ := Record.ofItem_ok hread
  have hreads := (Record.readsFrom_of_readMembers haccepted.root_distinct.names hobject).1
  refine ⟨htype ▸ haccepted.root_eq, Record.isShaped_of_ofItem hresolve hread,
    hreads.of_fields hfields, ?_⟩
  rw [htype]
  exact hwritten.isRegular hresolve

/-- The record that an updated item stores is at the revision that is viewed. -/
theorem ofItem_applyTo {read : Record} (haccepted : table.Accepted)
    (hread : Record.ofItem table item = .ok update.object.base)
    (hcompile : update.compile table = .ok compiled) (happly : compiled.applyTo item = .ok stored)
    (hobject : Codec.decodeObject table table.root stored = .ok read) :
    Record.ofItem table stored = .ok { read with
      revision := if table.optimisticLocking && compiled.update.isSome
        then update.object.base.revision + 1 else update.object.base.revision } := by
  obtain ⟨_, _, _, hheld⟩ := Record.ofItem_ok hread
  rw [Record.ofItem, hobject, ok_bind]
  cases hlocking : table.optimisticLocking with
  | true =>
    rw [if_pos hlocking] at hheld
    rw [storedRevision_of_applyTo haccepted hlocking hcompile happly hheld, Bool.true_and]
    rfl
  | false =>
    rw [if_neg (by rw [hlocking]; exact Bool.false_ne_true)] at hheld
    have hzero : read.revision = 0 := Codec.revision_readMembers hobject
    rw [hheld, Bool.false_and, if_neg Bool.false_ne_true, if_neg Bool.false_ne_true, ← hzero]
    rfl

/-- An update of a record that was read has a view if its changes last, and what is stored of it is
read as the record that is viewed, at the revision that is viewed. -/
theorem reads_as_viewed (hresolve : description.resolve = .ok table)
    (hwritten : Item.Written table item) (hread : Record.ofItem table item = .ok base)
    (hstart : start table base = .ok first) (hchanges : first.changeAll table changes = .ok update)
    (hlasts : ∀ change ∈ changes, change.Lasts table base)
    (hcompile : update.compile table = .ok compiled) (happly : compiled.applyTo item = .ok stored) :
    ∃ viewed, update.view table = .ok viewed ∧
      ((∀ json, Compresses table .plain viewed.toValue json → json.Survives) →
        ∃ record, Record.ofItem table stored = .ok record ∧ record.Alike viewed) := by
  have haccepted := TableDescription.accepted_of_resolve hresolve
  have htype := rootType_of_start hstart
  obtain ⟨hfirst, hfits⟩ := start_fits hstart
  obtain ⟨hsame, hfits⟩ := changeAll_fits hfits hchanges
  rw [hfirst] at hsame
  have hlasts : update.object.Lasts table :=
    changeAll_lasts haccepted (by rw [(start_ok table hstart).2]; trivial) (hfirst.symm ▸ hlasts)
      hchanges
  have htidy := tidy_of_start hstart hchanges
  unfold ObjectUpdate.Lasts at hlasts
  have hmutations := hfits.mutations
  rw [hsame] at hlasts hmutations
  obtain ⟨viewed, hview, htypeName, hrevision, hreads⟩ :=
    FieldMutation.exists_view_of_leaves haccepted
      (shown_of_ofItem hresolve hwritten hread htype) htidy.distinct.names hmutations hlasts
      (fun name mutation hfind => FieldMutation.readsAsViewed haccepted
        (FieldMutation.Distinct.of_find? htidy.distinct hfind))
      (leaves_applyTo hresolve hstart hchanges hcompile happly)
  have hobjectView : update.object.view table = .ok viewed := by
    rw [ObjectUpdate.view, hsame, htype, TableSchema.requireType_eq_ok_iff.mpr haccepted.root_eq,
      ok_bind, hview]
  refine ⟨_, view_eq hcompile hobjectView (hsame ▸ hrevision), fun hsurvives => ?_⟩
  obtain ⟨read, hmembers, hreadName, _, hentries⟩ :=
    hreads fun json hwithin => hsurvives json hwithin.of_revision
  have hname : table.root.name = base.typeName := by
    rw [htype]
    simpa using List.find?_some haccepted.root_eq
  refine ⟨_, ofItem_applyTo haccepted (hsame.symm ▸ hread) hcompile happly (hname ▸ hmembers), ?_⟩
  exact Value.alike_object_iff.mpr ⟨hreadName.trans htypeName.symm, hentries, rfl⟩

def hikerTable : TableSchema :=
  hikerDescription.resolve.toOption.getD default

def hikerHut : Record :=
  ⟨"Hut", [("place", .string "pass")], 0⟩

theorem lasts_hikerChanges : ∀ change ∈ hikerChanges, change.Lasts hikerTable hiker := by
  have hresolve : hikerDescription.resolve = .ok hikerTable := rfl
  have haccepted := TableDescription.accepted_of_resolve hresolve
  have hpeaks : ∀ field, hikerTable.fieldOf? "Hiker" "peaks" = some field → field.Lasting ∧
      field.HoldsLasting hikerTable (hiker.get? "peaks") := by
    rintro field ⟨⟩
    exact ⟨⟨rfl, rfl, .inl rfl, rfl⟩, _, rfl, .inr ⟨rfl, by decide⟩⟩
  have henter : ∀ {name : String} {mutation : Mutation},
      mutation.LastsAt hikerTable name [] hikerHut →
      FieldChange.Lasts hikerTable hiker ⟨["hut"], name, mutation⟩ := by
    refine fun hlasts => ⟨?_, hikerHut, rfl, hlasts⟩
    rintro field ⟨⟩
    exact ⟨rfl, rfl, .inl rfl, rfl⟩
  simp only [hikerChanges, List.forall_mem_cons]
  refine ⟨fun field hfield => ⟨(hpeaks field hfield).1, (hpeaks field hfield).2, ?_⟩, hpeaks, hpeaks,
    ?_, henter ?_, henter ?_, List.forall_mem_nil _⟩
  · cases hfield
    rintro element ⟨⟩
    exact .number haccepted (.inl rfl) ⟨5, rfl, rfl⟩
  · rintro field ⟨⟩
    refine ⟨⟨rfl, rfl, .inl rfl, rfl⟩, ⟨_, rfl, .inl ⟨_, rfl, .refl _⟩⟩, ?_⟩
    rintro element ⟨⟩
    exact ⟨_, rfl, .refl _⟩
  · rintro field ⟨⟩
    exact ⟨⟨rfl, rfl, .inl rfl, rfl⟩, trivial⟩
  · rintro field ⟨⟩
    exact ⟨⟨rfl, rfl, .inl rfl, rfl⟩, trivial⟩

theorem reads_as_viewed_hiker : ∃ item update compiled stored viewed,
    Item.Written hikerTable item ∧ Record.ofItem hikerTable item = .ok hiker ∧
    (start hikerTable hiker >>= fun first => first.changeAll hikerTable hikerChanges) = .ok update ∧
    update.compile hikerTable = .ok compiled ∧ compiled.applyTo item = .ok stored ∧
    update.view hikerTable = .ok viewed ∧
    ∃ record, Record.ofItem hikerTable stored = .ok record ∧ record.Alike viewed := by
  obtain ⟨item, hsave⟩ : ∃ item, hiker.toItem hikerTable = .ok item := ⟨_, rfl⟩
  have hread : Record.ofItem hikerTable item = .ok hiker := by
    cases hsave
    rfl
  have hsent : ((start hikerTable hiker).toOption.bind fun first =>
      (first.changeAll hikerTable hikerChanges).toOption.bind fun update =>
      (update.compile hikerTable).toOption.bind fun compiled =>
      (hiker.toItem hikerTable).toOption.bind fun item =>
      (compiled.applyTo item).toOption).isSome = true := by
    decide +kernel
  obtain ⟨stored, hsent⟩ := Option.isSome_iff_exists.mp hsent
  simp only [Option.bind_eq_some_iff, toOption_eq_some_iff] at hsent
  obtain ⟨first, hstart, update, hchanges, compiled, hcompile, other, hsame, happly⟩ := hsent
  cases hsave.symm.trans hsame
  have hresolve : hikerDescription.resolve = .ok hikerTable := rfl
  obtain ⟨viewed, hview, hreads⟩ := reads_as_viewed hresolve (.saved hsave) hread hstart hchanges
    lasts_hikerChanges hcompile happly
  exact ⟨item, update, compiled, stored, viewed, .saved hsave, hread,
    bind_eq_ok_iff.mpr ⟨first, hstart, hchanges⟩, hcompile, happly, hview,
    hreads fun json hwithin => absurd hwithin (not_compresses (by decide +kernel) rfl)⟩

end Update

end RecordStore
