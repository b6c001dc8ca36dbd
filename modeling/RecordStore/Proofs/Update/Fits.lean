import RecordStore.Proofs.Codec.Object
import RecordStore.Proofs.Codec.Sound
import RecordStore.Proofs.Update.Made

/-!
# Pending changes that fit their fields

Changes that succeed leave only changes pending that fit their fields: a scalar that is pending
changes something, a collection changes as its kind does, and a nested object begins with what its
field holds.
-/

namespace RecordStore

variable {table : TableSchema}

/-! ### Records of declared fields -/

/-- What a record holds in its declared fields is of their types. -/
def Record.IsShaped (table : TableSchema) (record : Record) : Prop :=
  ∀ name value field, record.get? name = some value →
    table.fieldOf? record.typeName name = some field →
    value.isNull = false ∧ Fulfils table .read field.type value

namespace Record

theorem isShaped_empty (table : TableSchema) (typeName : String) :
    (empty typeName).IsShaped table := by
  intro name value field hheld
  cases hheld

theorem isShaped_of_fulfils {record : Record} {typeName : String}
    (hfulfils : Fulfils table .read (.scalar (.object typeName)) record.toValue) :
    record.IsShaped table := by
  obtain ⟨_, fields, revision⟩ := record
  intro name value field hheld hfield
  have hmem := Entries.mem_of_find? hheld
  cases hfulfils with
  | object declared present known fulfils keyed =>
    rw [TableSchema.fieldOf?, declared] at hfield
    exact ⟨present name value hmem, fulfils name value field hmem hfield⟩

/-- The object that a field holds, or an empty one, is of the declared type. -/
theorem IsShaped.objectAt {base : Record} (hbase : base.IsShaped table) {name typeName : String}
    {field : FieldSchema} (hfield : table.fieldOf? base.typeName name = some field)
    (htype : field.type = .scalar (.object typeName)) :
    (base.objectAt name typeName).IsShaped table := by
  unfold Record.objectAt
  cases hheld : base.get? name with
  | none => exact isShaped_empty table typeName
  | some value =>
    obtain ⟨hpresent, hfulfils⟩ := hbase name value field hheld hfield
    rw [htype] at hfulfils
    cases hfulfils with
    | null => cases hpresent
    | number numeric => cases numeric
    | object declared present known fulfils keyed =>
      exact isShaped_of_fulfils (Fulfils.object declared present known fulfils keyed)

theorem IsShaped.typeName_objectAt {base : Record} (hbase : base.IsShaped table)
    {name typeName : String} {field : FieldSchema}
    (hfield : table.fieldOf? base.typeName name = some field)
    (htype : field.type = .scalar (.object typeName)) :
    (base.objectAt name typeName).typeName = typeName := by
  unfold Record.objectAt
  cases hheld : base.get? name with
  | none => rfl
  | some value =>
    obtain ⟨hpresent, hfulfils⟩ := hbase name value field hheld hfield
    rw [htype] at hfulfils
    cases hfulfils with
    | null => cases hpresent
    | number numeric => cases numeric
    | object => rfl

/-- A record that was read from a table whose schema was accepted. -/
theorem isShaped_of_ofItem {description : TableDescription} {item : Item} {record : Record}
    (hresolve : description.resolve = .ok table) (hread : ofItem table item = .ok record) :
    record.IsShaped table := by
  have haccepted := TableDescription.accepted_of_resolve hresolve
  have hroot := haccepted.root_eq
  have hname : table.root.name = table.rootType := by simpa using List.find?_some hroot
  have hallowed : (ValueType.scalar (.object table.rootType)).Allowed table :=
    ⟨⟨_, rfl⟩, fun typeName helement => by cases helement; exact ⟨_, hroot⟩, nofun⟩
  have hreads := Codec.reads_of_resolve hresolve hallowed (.map item)
  obtain ⟨decoded, hdecoded, hrevision⟩ := bind_eq_ok_iff.mp hread
  rw [Codec.decode_object_eq hroot, ← hname, ← Codec.decodeObject, hdecoded] at hreads
  have hshaped : decoded.IsShaped table := isShaped_of_fulfils hreads
  split at hrevision
  · obtain ⟨revision, _, hrecord⟩ := bind_eq_ok_iff.mp hrevision
    cases hrecord
    exact hshaped
  · cases hrevision
    exact hshaped

end Record

/-! ### Changes that fit -/

def CollectionDelta.kind : CollectionDelta → Kind
  | .map _ => .map
  | .set _ => .set
  | .list _ => .list

/-- Something may be kept of what the base holds. -/
def CollectionDelta.Keeps (base : Value) (delta : CollectionDelta) : Prop :=
  delta.clears = false ∧ Expression.Builder.isEmptyCollection base = false

mutual

/-- What is pending for a field of a type, given what the base holds in it. -/
def FieldMutation.Fits (table : TableSchema) (type : ValueType) (held : Option Value) :
    FieldMutation → Prop
  | .scalar delta => delta.isEmpty = false
  | .collection delta => type.kind = delta.kind
  | .object nested mutations => ∃ typeName, type = .scalar (.object typeName) ∧
      nested = (held.bind Value.record?).getD (.empty typeName) ∧
      (table.type? nested.typeName).isSome = true ∧ AllFit table nested mutations

def FieldMutation.AllFit (table : TableSchema) (base : Record) :
    List (String × FieldMutation) → Prop
  | [] => True
  | (name, mutation) :: rest => (∃ field, table.fieldOf? base.typeName name = some field ∧
      mutation.Fits table field.type (base.get? name)) ∧ AllFit table base rest

end

theorem FieldMutation.allFit_iff {base : Record} {mutations : List (String × FieldMutation)} :
    AllFit table base mutations ↔ ∀ entry ∈ mutations, ∃ field,
      table.fieldOf? base.typeName entry.1 = some field ∧
        entry.2.Fits table field.type (base.get? entry.1) := by
  induction mutations with
  | nil => simp [AllFit]
  | cons entry rest ih => rw [AllFit, ih, List.forall_mem_cons]

theorem ScalarDelta.isEmpty_increment {delta after : ScalarDelta} {amount : Number} {element : ElementType}
    (hincrement : delta.increment amount element = .ok after) : after.isEmpty = false := by
  unfold ScalarDelta.increment at hincrement
  split at hincrement
  · cases hincrement
    rfl
  · split at hincrement
    · obtain ⟨value, _, hafter⟩ := bind_eq_ok_iff.mp hincrement
      cases hafter
      rfl
    · cases hincrement
      simp [ScalarDelta.isEmpty]
    · cases hincrement
      simp [ScalarDelta.isEmpty]

namespace ObjectUpdate

variable {name : String} {update later : ObjectUpdate}

structure Fits (table : TableSchema) (update : ObjectUpdate) : Prop where
  declared : (table.type? update.base.typeName).isSome = true
  mutations : FieldMutation.AllFit table update.base update.mutations

/-- Something else is pending for a declared field, and it fits. -/
def Fitted (table : TableSchema) (name : String) (update later : ObjectUpdate)
    (mutation : FieldMutation) : Prop :=
  ∃ field, Makes table name update later field mutation ∧
    mutation.Fits table field.type (update.base.get? name)

theorem Fits.of_fitted {mutation : FieldMutation} (hupdate : update.Fits table)
    (hfitted : Fitted table name update later mutation) :
    later.base = update.base ∧ later.Fits table := by
  obtain ⟨field, ⟨hfield, rfl⟩, hfits⟩ := hfitted
  refine ⟨rfl, hupdate.declared, FieldMutation.allFit_iff.mpr fun entry hmem => ?_⟩
  rcases Entries.mem_put hmem with rfl | hmem
  · exact ⟨field, hfield, hfits⟩
  · exact FieldMutation.allFit_iff.mp hupdate.mutations entry hmem

theorem Fits.of_mutation? {mutation : FieldMutation} {field : FieldSchema}
    (hupdate : update.Fits table) (hpending : update.mutation? name = some mutation)
    (hfield : table.fieldOf? update.base.typeName name = some field) :
    mutation.Fits table field.type (update.base.get? name) := by
  obtain ⟨other, hother, hfits⟩ :=
    FieldMutation.allFit_iff.mp hupdate.mutations _ (Entries.mem_of_find? hpending)
  cases hother.symm.trans hfield
  exact hfits

theorem set_fitted {value : Value}
    (hrun : (set table name value).run.run update = (.ok (), later)) :
    ∃ mutation, Fitted table name update later mutation := by
  obtain ⟨field, hmakes⟩ := set_ok hrun
  refine ⟨_, field, hmakes, ?_⟩
  split <;> rfl

theorem increment_fitted {amount : Number}
    (hrun : (increment table name amount).run.run update = (.ok (), later)) :
    ∃ mutation, Fitted table name update later mutation := by
  obtain ⟨field, element, before, after, hmakes, _, _, hafter⟩ := increment_ok hrun
  exact ⟨_, field, hmakes, ScalarDelta.isEmpty_increment hafter⟩

theorem changeCollection_fitted {kind : Kind} {empty : CollectionDelta}
    {change : CollectionDelta → ElementType → Except Error CollectionDelta}
    (hupdate : update.Fits table) (hempty : empty.kind = kind)
    (hchange : ∀ delta element after, change delta element = .ok after → after.kind = delta.kind)
    (hrun : (changeCollection table name kind empty change).run.run update = (.ok (), later)) :
    ∃ mutation, Fitted table name update later mutation := by
  obtain ⟨field, element, htype, ⟨before, after, hmakes, hpending, hafter⟩ |
    ⟨whole, delta, value, hmakes, _⟩⟩ := changeCollection_ok hrun
  · refine ⟨.collection after, field, hmakes, ?_⟩
    change field.type.kind = _
    rw [hchange before element after hafter]
    rcases hpending with ⟨_, rfl⟩ | hpending
    · rw [hempty, htype]
    · exact hupdate.of_mutation? hpending hmakes.declared
  · exact ⟨_, field, hmakes, rfl⟩

theorem changeMap_fitted {change : MapDelta → ElementType → Except Error MapDelta}
    (hupdate : update.Fits table)
    (hrun : (changeMap table name change).run.run update = (.ok (), later)) :
    ∃ mutation, Fitted table name update later mutation := by
  refine changeCollection_fitted hupdate ?_ ?_ hrun
  · rfl
  intro delta element after hafter
  cases delta with
  | map delta =>
    obtain ⟨changed, _, rfl⟩ := map_eq_ok_iff.mp hafter
    rfl
  | set delta | list delta =>
    cases hafter
    rfl

theorem changeSet_fitted {change : SetDelta → SetDelta} (hupdate : update.Fits table)
    (hrun : (changeSet table name change).run.run update = (.ok (), later)) :
    ∃ mutation, Fitted table name update later mutation := by
  refine changeCollection_fitted hupdate ?_ ?_ hrun
  · rfl
  intro delta element after hafter
  cases delta <;> cases hafter <;> rfl

theorem append_fitted {values : List Value} (hupdate : update.Fits table)
    (hrun : (append table name values).run.run update = (.ok (), later)) :
    ∃ mutation, Fitted table name update later mutation := by
  refine changeCollection_fitted hupdate ?_ ?_ hrun
  · rfl
  intro delta element after hafter
  cases delta <;> cases hafter <;> rfl

theorem clear_fitted (hrun : (clear table name).run.run update = (.ok (), later)) :
    ∃ mutation, Fitted table name update later mutation := by
  obtain ⟨field, delta, hmakes, hnone⟩ := clear_ok hrun
  refine ⟨.collection delta.clearing, field, hmakes, ?_⟩
  change field.type.kind = _
  generalize field.type.kind = kind at hnone ⊢
  cases kind <;> cases hnone <;> rfl

/-- The type of an object that is first entered is looked up. -/
theorem declared_of_enter {nested : ObjectUpdate}
    (hrun : (enter table name).run.run update = (.ok nested, later))
    (hnone : update.mutation? name = none) : (table.type? nested.base.typeName).isSome = true := by
  obtain ⟨field, _, rfl, henter⟩ := fieldOf_ok hrun
  split at henter
  · replace henter := run_get_bind_ok henter
    replace henter := run_get_bind_ok henter
    rw [hnone] at henter
    obtain ⟨type, htype, henter⟩ := run_except_bind_ok henter
    cases henter
    rw [TableSchema.requireType_eq_ok_iff.mp htype]
    rfl
  · cases henter

/-- An object that is entered begins with what its field holds. -/
theorem enter_fitted {nested : ObjectUpdate} (hupdate : update.Fits table)
    (hrun : (enter table name).run.run update = (.ok nested, later)) :
    nested.Fits table ∧
      Fitted table name update later (.object nested.base nested.mutations) := by
  obtain ⟨field, typeName, hfield, htype, hlater, hpending⟩ := enter_ok hrun
  have hfits : (FieldMutation.object nested.base nested.mutations).Fits table field.type
      (update.base.get? name) := by
    rcases hpending with ⟨hnone, hbase, hnil⟩ | hpending
    · refine ⟨typeName, htype, hbase, declared_of_enter hrun hnone, ?_⟩
      rw [hnil]
      trivial
    · exact hupdate.of_mutation? hpending hfield
  have hnested : nested.Fits table := by
    obtain ⟨_, _, _, hdeclared, hmutations⟩ := hfits
    exact ⟨hdeclared, hmutations⟩
  exact ⟨hnested, field, ⟨hfield, hlater⟩, hfits⟩

/-- A change below an object leaves something else pending for the field that its path begins
with. -/
theorem within_fitted {change : Updating Unit} {target : String} {path : List String}
    (hchange : ∀ {update later : ObjectUpdate}, update.Fits table →
      change.run.run update = (.ok (), later) →
      ∃ mutation, Fitted table target update later mutation)
    (hupdate : update.Fits table)
    (hrun : (within table path change).run.run update = (.ok (), later)) :
    ∃ mutation, Fitted table (path.headD target) update later mutation := by
  induction path generalizing update later with
  | nil => exact hchange hupdate hrun
  | cons name rest ih =>
    obtain ⟨nested, between, nestedLater, henter, hwithin, rfl⟩ := within_ok hrun
    obtain ⟨hnested, field, hmakes, typeName, htype, hbase, hdeclared, _⟩ :=
      enter_fitted hupdate henter
    obtain ⟨mutation, hfitted⟩ := ih hnested hwithin
    obtain ⟨hsame, hlater⟩ := hnested.of_fitted hfitted
    refine ⟨.object nestedLater.base nestedLater.mutations, field, ⟨hmakes.declared, ?_⟩, typeName,
      htype, hsame.trans hbase, hlater.declared, hlater.mutations⟩
    -- Entering the object has set its field already, and the change sets it again.
    rw [hmakes.later, withMutation, withMutation, Entries.put_put]
    rfl

end ObjectUpdate

/-! ### Runs of changes -/

section Changes

variable {update later : ObjectUpdate}

theorem Mutation.make_fitted {name : String} {mutation : Mutation} (hupdate : update.Fits table)
    (hrun : (mutation.make table name).run.run update = (.ok (), later)) :
    ∃ pending, ObjectUpdate.Fitted table name update later pending := by
  cases mutation <;> rw [Mutation.make] at hrun
  case set value => exact ObjectUpdate.set_fitted hrun
  case remove => exact ObjectUpdate.set_fitted hrun
  case increment amount => exact ObjectUpdate.increment_fitted hrun
  case putEntry key value => exact ObjectUpdate.changeMap_fitted hupdate hrun
  case incrementEntry key amount => exact ObjectUpdate.changeMap_fitted hupdate hrun
  case deleteEntry key => exact ObjectUpdate.changeMap_fitted hupdate hrun
  case addElement value => exact ObjectUpdate.changeSet_fitted hupdate hrun
  case deleteElement value => exact ObjectUpdate.changeSet_fitted hupdate hrun
  case append values => exact ObjectUpdate.append_fitted hupdate hrun
  case clear => exact ObjectUpdate.clear_fitted hrun
  case enter =>
    obtain ⟨nested, between, henter, hdone⟩ := run_bind_ok hrun
    obtain ⟨_, rfl⟩ := run_pure_ok hdone
    exact ⟨_, (ObjectUpdate.enter_fitted hupdate henter).2⟩

theorem FieldChange.make_fits {change : FieldChange} (hupdate : update.Fits table)
    (hrun : (change.make table).run.run update = (.ok (), later)) :
    later.base = update.base ∧ later.Fits table := by
  obtain ⟨mutation, hfitted⟩ := ObjectUpdate.within_fitted Mutation.make_fitted hupdate hrun
  exact hupdate.of_fitted hfitted

theorem Update.changeAll_fits {update later : Update} {changes : List FieldChange}
    (hupdate : update.object.Fits table) (hchanges : update.changeAll table changes = .ok later) :
    later.object.base = update.object.base ∧ later.object.Fits table := by
  induction changes generalizing update with
  | nil =>
    cases hchanges
    exact ⟨rfl, hupdate⟩
  | cons change rest ih =>
    rw [changeAll] at hchanges
    split at hchanges
    · rename_i between hchange
      unfold Update.change at hchange
      rcases hrun : (change.make table).run.run update.object with ⟨outcome, object⟩
      rw [hrun] at hchange
      cases hchange
      obtain ⟨hsame, hobject⟩ := FieldChange.make_fits hupdate hrun
      obtain ⟨hbase, hlater⟩ := ih hobject hchanges
      exact ⟨hbase.trans hsame, hlater⟩
    · cases hchanges

theorem Update.start_fits {base : Record} {update : Update}
    (hstart : Update.start table base = .ok update) :
    update.object.base = base ∧ update.object.Fits table := by
  unfold Update.start at hstart
  split at hstart
  · cases hstart
  · obtain ⟨key, _, hstart⟩ := bind_eq_ok_iff.mp hstart
    obtain ⟨type, htype, hdone⟩ := bind_eq_ok_iff.mp hstart
    cases hdone
    refine ⟨rfl, ?_, trivial⟩
    rw [TableSchema.requireType_eq_ok_iff.mp htype]
    rfl

end Changes

end RecordStore
