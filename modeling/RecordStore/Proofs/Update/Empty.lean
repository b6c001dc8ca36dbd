import RecordStore.Proofs.Update.Fits
import RecordStore.Proofs.Update.View

/-!
# Updates that change nothing

Calls without elements and objects that are entered without a change leave empty changes pending.
They compile to nothing. A view shows the base then, except that a collection or an object that the
base lacks shows as an empty one as soon as a change of it was begun.
-/

namespace RecordStore

open Expression (Builder Building Compiled)

variable {table : TableSchema}

/-! ### What is shown -/

/-- What a field holds, and what it shows when nothing changes: the same, or an empty collection or
object where nothing is held. -/
inductive Opened : Option Value → Option Value → Prop where
  | same (value : Option Value) : Opened value value
  | map : Opened none (some (.map []))
  | set : Opened none (some (.set []))
  | list : Opened none (some (.list []))
  | object {typeName : String} {fields shown : List (String × Value)} {revision : Int64}
    (opened : ∀ name, Opened (Entries.find? fields name) (Entries.find? shown name)) :
    Opened (some (.object typeName fields revision)) (some (.object typeName shown revision))
  | absent {typeName : String} {shown : List (String × Value)}
    (opened : ∀ name, Opened none (Entries.find? shown name)) :
    Opened none (some (.object typeName shown 0))

mutual

/-- The base holds something wherever a collection or an object is touched, at every depth. -/
def FieldMutation.IsHeld (held : Option Value) : FieldMutation → Prop
  | .scalar _ => True
  | .collection _ => held.isSome = true
  | .object nested mutations => held.isSome = true ∧ AllHeld nested mutations

def FieldMutation.AllHeld (base : Record) : List (String × FieldMutation) → Prop
  | [] => True
  | (name, mutation) :: rest => mutation.IsHeld (base.get? name) ∧ AllHeld base rest

end

/-! ### Merging with empty deltas -/

theorem MapDelta.eq_none_of_isEmpty {delta : MapDelta} (hempty : delta.isEmpty = true) :
    delta = .none := by
  obtain ⟨updates, amounts, deletes, clear⟩ := delta
  simp only [isEmpty, Bool.and_eq_true, Bool.not_eq_true', List.isEmpty_iff] at hempty
  obtain ⟨⟨⟨rfl, rfl⟩, rfl⟩, rfl⟩ := hempty
  rfl

theorem SetDelta.eq_none_of_isEmpty {delta : SetDelta} (hempty : delta.isEmpty = true) :
    delta = .none := by
  obtain ⟨adds, deletes, clear⟩ := delta
  simp only [isEmpty, Bool.and_eq_true, Bool.not_eq_true', List.isEmpty_iff] at hempty
  obtain ⟨⟨rfl, rfl⟩, rfl⟩ := hempty
  rfl

theorem ListDelta.eq_none_of_isEmpty {delta : ListDelta} (hempty : delta.isEmpty = true) :
    delta = .none := by
  obtain ⟨appends, clear⟩ := delta
  simp only [isEmpty, Bool.and_eq_true, Bool.not_eq_true', List.isEmpty_iff] at hempty
  obtain ⟨rfl, rfl⟩ := hempty
  rfl

theorem MapDelta.merge_none (entries : List (String × Value)) (element : ElementType) :
    none.merge (.map entries) element = .ok (.map entries) := by
  simp [merge, none, baseEntries]

theorem SetDelta.merge_none (elements : List Value) :
    none.merge (.set elements) = .ok (.set elements) := by
  simp [merge, none, baseElements, Except.map]

theorem ListDelta.merge_none (items : List Value) :
    none.merge (.list items) = .ok (.list items) := by
  simp [merge, none]

/-- What a field shows when nothing changes. -/
structure Shows (held : Option Value) (value : Value) : Prop where
  present : value.isNull = false
  opened : Opened held (some value)

/-- A collection without changes pending is merged to what is held, or to an empty collection where
nothing is held. -/
theorem CollectionDelta.merge_of_isEmpty {delta : CollectionDelta} {type : ValueType}
    {element : ElementType} {held : Option Value} (hempty : delta.isEmpty = true)
    (hkind : type.kind = delta.kind) (helement : type.element = some element)
    (hheld : ∀ value, held = some value →
      value.isNull = false ∧ Fulfils table .read type value) :
    ∃ value, delta.merge (held.getD .null) element = .ok value ∧ Shows held value ∧
      (held.isSome = true → held = some value) := by
  rw [ValueType.eq_of hkind helement] at hheld
  cases delta with
  | map delta =>
    obtain rfl := MapDelta.eq_none_of_isEmpty hempty
    cases held with
    | none => exact ⟨.map [], rfl, ⟨rfl, .map⟩, nofun⟩
    | some value =>
      obtain ⟨_, hfulfils⟩ := hheld value rfl
      cases hfulfils with
      | map => exact ⟨_, MapDelta.merge_none _ element, ⟨rfl, .same _⟩, fun _ => rfl⟩
  | set delta =>
    obtain rfl := SetDelta.eq_none_of_isEmpty hempty
    cases held with
    | none => exact ⟨.set [], rfl, ⟨rfl, .set⟩, nofun⟩
    | some value =>
      obtain ⟨_, hfulfils⟩ := hheld value rfl
      cases hfulfils with
      | set => exact ⟨_, SetDelta.merge_none _, ⟨rfl, .same _⟩, fun _ => rfl⟩
  | list delta =>
    obtain rfl := ListDelta.eq_none_of_isEmpty hempty
    cases held with
    | none => exact ⟨.list [], rfl, ⟨rfl, .list⟩, nofun⟩
    | some value =>
      obtain ⟨_, hfulfils⟩ := hheld value rfl
      cases hfulfils with
      | list => exact ⟨_, ListDelta.merge_none _, ⟨rfl, .same _⟩, fun _ => rfl⟩

/-! ### Views without changes -/

theorem TableSchema.Accepted.element_of_fieldOf? (haccepted : table.Accepted)
    {typeName name : String} {field : FieldSchema}
    (hfield : table.fieldOf? typeName name = some field) :
    ∃ element, field.type.element = some element := by
  obtain ⟨type, htype, hfield⟩ := Option.bind_eq_some_iff.mp hfield
  exact (haccepted.allowed (List.mem_of_find?_eq_some htype)
    (List.mem_of_find?_eq_some hfield)).element

theorem TableSchema.requireField_of_fieldOf? {type : TypeSchema} {typeName name : String}
    {field : FieldSchema} (htype : table.type? typeName = some type)
    (hfield : table.fieldOf? typeName name = some field) : type.requireField name = .ok field := by
  rw [TableSchema.fieldOf?, htype] at hfield
  exact TypeSchema.requireField_eq_ok_iff.mpr hfield

/-- A field that is set to what it holds leaves the record as it is. -/
theorem Record.set_of_get? {record : Record} {name : String} {value : Value}
    (hheld : record.get? name = some value) (hpresent : value.isNull = false) :
    record.set name value = record := by
  rw [Record.set, if_neg (by rw [hpresent]; exact Bool.false_ne_true),
    Entries.put_of_find? hheld]

/-- The record shows in every field what it shows when nothing changes. -/
structure Record.ShowsAll (base shown : Record) : Prop where
  typeName : shown.typeName = base.typeName
  revision : shown.revision = base.revision
  fields : ∀ name, Opened (base.get? name) (shown.get? name)

theorem Record.ShowsAll.refl (base : Record) : base.ShowsAll base :=
  ⟨rfl, rfl, fun _ => .same _⟩

theorem Record.ShowsAll.set {base before : Record} (hbefore : base.ShowsAll before) {name : String}
    {value : Value} (hvalue : Shows (base.get? name) value) :
    base.ShowsAll (before.set name value) := by
  refine ⟨hbefore.typeName, hbefore.revision, fun other => ?_⟩
  rw [Record.get?_set]
  split
  · rename_i hname
    rw [← hname, if_neg (by rw [hvalue.present]; exact Bool.false_ne_true)]
    exact hvalue.opened
  · exact hbefore.fields other

/-- A nested object begins with the object that its field holds. -/
theorem Record.IsShaped.object_cases {base nested : Record} (hbase : base.IsShaped table)
    {name typeName : String} {field : FieldSchema}
    (hfield : table.fieldOf? base.typeName name = some field)
    (htype : field.type = .scalar (.object typeName))
    (hnested : nested = base.objectAt name typeName) :
    base.get? name = none ∧ nested = .empty typeName ∨ base.get? name = some nested.toValue := by
  cases hheld : base.get? name with
  | none =>
    rw [Record.objectAt, hheld] at hnested
    exact .inl ⟨rfl, hnested⟩
  | some value =>
    obtain ⟨hpresent, hfulfils⟩ := hbase name value field hheld hfield
    rw [htype] at hfulfils
    cases hfulfils with
    | null => cases hpresent
    | number numeric => cases numeric
    | object =>
      rw [Record.objectAt, hheld] at hnested
      rw [hnested]
      exact .inr rfl

theorem Record.ShowsAll.opened {base shown : Record} (hshows : base.ShowsAll shown) :
    Opened (some base.toValue) (some shown.toValue) := by
  rw [Record.toValue, Record.toValue, hshows.typeName, hshows.revision]
  exact .object hshows.fields

theorem Record.ShowsAll.opened_of_empty {typeName : String} {shown : Record}
    (hshows : (Record.empty typeName).ShowsAll shown) : Opened none (some shown.toValue) := by
  rw [Record.toValue, hshows.revision]
  exact .absent hshows.fields

mutual

/-- An empty change of a field shows what the field holds. -/
theorem FieldMutation.latest_of_isEmpty (haccepted : table.Accepted) {name : String}
    {field : FieldSchema} {base : Record} (hfield : table.fieldOf? base.typeName name = some field)
    (hbase : base.IsShaped table) : (mutation : FieldMutation) →
    mutation.Fits table field.type (base.get? name) → mutation.isEmpty = true →
    ∃ value, mutation.latest table field ((base.get? name).getD .null) = .ok value ∧
      Shows (base.get? name) value ∧ (mutation.IsHeld (base.get? name) → base.get? name = some value)
  | .scalar delta, hfits, hempty => by
    rw [FieldMutation.isEmpty, hfits] at hempty
    cases hempty
  | .collection delta, hfits, hempty => by
    obtain ⟨element, helement⟩ := haccepted.element_of_fieldOf? hfield
    rw [FieldMutation.latest, ValueType.requireElement_eq_ok_iff.mpr helement]
    exact CollectionDelta.merge_of_isEmpty hempty hfits helement fun value hvalue =>
      hbase name value field hvalue hfield
  | .object nested mutations, ⟨typeName, htype, hnested, hdeclared, hfits⟩, hempty => by
    obtain ⟨type, hobject⟩ := Option.isSome_iff_exists.mp hdeclared
    have hshaped : nested.IsShaped table := hnested ▸ hbase.objectAt hfield htype
    obtain ⟨viewed, hview, hshows, hsame⟩ := viewFields_of_areEmpty haccepted hobject hshaped
      mutations nested hfits hempty (.refl nested)
    refine ⟨viewed.toValue, ?_, ⟨rfl, ?_⟩, ?_⟩
    · rw [latest, TableSchema.requireType_eq_ok_iff.mpr hobject, ok_bind, hview]
      rfl
    · rcases hbase.object_cases hfield htype hnested with ⟨hnone, rfl⟩ | hsome
      · rw [hnone]
        exact hshows.opened_of_empty
      · rw [hsome]
        exact hshows.opened
    · -- An object that is held and shows no empty parts of its own shows as it is held.
      rintro ⟨hheld, hall⟩
      rw [hsame hall rfl]
      rcases hbase.object_cases hfield htype hnested with ⟨hnone, _⟩ | hsome
      · rw [hnone] at hheld
        cases hheld
      · exact hsome

theorem FieldMutation.viewFields_of_areEmpty (haccepted : table.Accepted) {type : TypeSchema}
    {base : Record} (htype : table.type? base.typeName = some type) (hbase : base.IsShaped table) :
    (mutations : List (String × FieldMutation)) → (before : Record) →
    AllFit table base mutations → areEmpty mutations = true → base.ShowsAll before →
    ∃ viewed, viewFields table type base before mutations = .ok viewed ∧ base.ShowsAll viewed ∧
      (AllHeld base mutations → before = base → viewed = base)
  | [], before, _, _, hbefore => ⟨before, rfl, hbefore, fun _ => id⟩
  | (name, mutation) :: rest, before, ⟨⟨field, hfield, hfits⟩, hrest⟩, hempty, hbefore => by
    rw [areEmpty, Bool.and_eq_true] at hempty
    obtain ⟨value, hlatest, hshows, hheld⟩ :=
      latest_of_isEmpty haccepted hfield hbase mutation hfits hempty.1
    obtain ⟨viewed, hview, hviewed, hsame⟩ :=
      viewFields_of_areEmpty haccepted htype hbase rest _ hrest hempty.2 (hbefore.set hshows)
    rw [viewFields, TableSchema.requireField_of_fieldOf? htype hfield, ok_bind, hlatest, ok_bind,
      field.settled_of_present hshows.present]
    refine ⟨viewed, hview, hviewed, ?_⟩
    rintro ⟨hfirst, hothers⟩ rfl
    exact hsame hothers (Record.set_of_get? (hheld hfirst) hshows.present)

end

/-! ### Nothing to write -/

theorem FieldMutation.compileFields_of_areEmpty {type : TypeSchema} {base : Record}
    (htype : table.type? base.typeName = some type) {mutations : List (String × FieldMutation)}
    (hdeclared : ∀ entry ∈ mutations, ∃ field, table.fieldOf? base.typeName entry.1 = some field)
    (hempty : areEmpty mutations = true) (path : List String) :
    compileFields table type base path mutations = pure () := by
  induction mutations with
  | nil => rw [compileFields]
  | cons entry rest ih =>
    obtain ⟨name, mutation⟩ := entry
    obtain ⟨⟨field, hfield⟩, hrest⟩ := List.forall_mem_cons.mp hdeclared
    rw [areEmpty, Bool.and_eq_true] at hempty
    rw [compileFields, TableSchema.requireField_of_fieldOf? htype hfield, ih hrest hempty.2,
      liftM_ok, pure_bind, hempty.1, Bool.not_true, Bool.and_false]
    rfl

theorem ObjectUpdate.compile_of_areEmpty {update : ObjectUpdate} (hupdate : update.Fits table)
    (hempty : FieldMutation.areEmpty update.mutations = true) :
    update.compile table = pure () := by
  obtain ⟨type, htype⟩ := Option.isSome_iff_exists.mp hupdate.declared
  unfold ObjectUpdate.compile
  rw [TableSchema.requireType_eq_ok_iff.mpr htype, liftM_ok, pure_bind]
  refine FieldMutation.compileFields_of_areEmpty htype (fun entry hmem => ?_) hempty []
  obtain ⟨field, hfield, _⟩ := FieldMutation.allFit_iff.mp hupdate.mutations entry hmem
  exact ⟨field, hfield⟩

namespace Update

theorem writes_of_isEmpty {update : Update} (hupdate : update.object.Fits table)
    (hempty : update.isEmpty = true) : update.writes table = .ok false := by
  unfold writes
  rw [update.object.compile_of_areEmpty hupdate hempty]
  rfl

theorem compile_of_isEmpty {update : Update} (hupdate : update.object.Fits table)
    (hempty : update.isEmpty = true) :
    update.compile table = .ok ⟨none, none, none, none, none, none⟩ := by
  unfold compile build
  rw [update.object.compile_of_areEmpty hupdate hempty]
  rfl

/-- An update that changes nothing compiles to nothing. Its view is the record that was read, with
empty collections and objects in fields that the record lacks, where a change of them was begun; it
is the record itself when there are none of these. -/
theorem view_of_isEmpty {description : TableDescription} {item : Item} {base : Record}
    {first update : Update} {changes : List FieldChange}
    (hresolve : description.resolve = .ok table) (hread : Record.ofItem table item = .ok base)
    (hstart : start table base = .ok first) (hchanges : first.changeAll table changes = .ok update)
    (hempty : update.isEmpty = true) :
    update.compile table = .ok ⟨none, none, none, none, none, none⟩ ∧
      ∃ record, update.view table = .ok record ∧ base.ShowsAll record ∧
        (FieldMutation.AllHeld base update.object.mutations → record = base) := by
  obtain ⟨hbase, hfirst⟩ := start_fits hstart
  obtain ⟨hsame, hupdate⟩ := changeAll_fits hfirst hchanges
  rw [hbase] at hsame
  have haccepted := TableDescription.accepted_of_resolve hresolve
  refine ⟨compile_of_isEmpty hupdate hempty, ?_⟩
  obtain ⟨type, htype⟩ := Option.isSome_iff_exists.mp hupdate.declared
  rw [hsame] at htype
  obtain ⟨record, hview, hshows, hheld⟩ := FieldMutation.viewFields_of_areEmpty haccepted htype
    (Record.isShaped_of_ofItem hresolve hread) _ base (hsame ▸ hupdate.mutations) hempty
    (.refl base)
  have hobject : update.object.view table = .ok record := by
    rw [ObjectUpdate.view, hsame, TableSchema.requireType_eq_ok_iff.mpr htype, ok_bind, hview]
  refine ⟨record, ?_, hshows, fun hall => hheld hall rfl⟩
  rw [view, hobject, writes_of_isEmpty hupdate hempty, ok_bind]
  split <;> rfl

/-- An absent home that is entered shows as an empty one. -/
example : (((FieldChange.make playersTable ⟨[], "home", .enter⟩).run.run
    ⟨player, true, []⟩).2.view playersTable).map (·.get? "home") =
    .ok (some (.object "Place" [] 0)) := by rfl

end Update

end RecordStore
