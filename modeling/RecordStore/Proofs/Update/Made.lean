import RecordStore.Proofs.Schema.Accepted
import RecordStore.Proofs.Update.Execution

/-!
# What a change leaves pending

A change that succeeds replaces what is pending for one field, and leaves the rest alone. What it
replaces it with depends on what was pending before.
-/

namespace RecordStore

theorem TypeSchema.name_of_field? {type : TypeSchema} {name : String} {field : FieldSchema}
    (hfield : type.field? name = some field) : field.name = name := by
  simpa using List.find?_some hfield

theorem ValueType.requireElement_eq_ok_iff {type : ValueType} {element : ElementType} :
    type.requireElement = .ok element ↔ type.element = some element := by
  unfold ValueType.requireElement
  cases type.element <;> simp

theorem ValueType.eq_of {type : ValueType} {kind : Kind} {element : Option ElementType}
    (hkind : type.kind = kind) (helement : type.element = element) : type = ⟨kind, element⟩ := by
  rw [← hkind, ← helement]

namespace ObjectUpdate

variable {table : TableSchema} {name : String} {update later : ObjectUpdate}

def withMutation (update : ObjectUpdate) (name : String) (mutation : FieldMutation) :
    ObjectUpdate :=
  { update with mutations := Entries.put update.mutations name mutation }

/-- A change leaves something else pending for a declared field. -/
structure Makes (table : TableSchema) (name : String) (update later : ObjectUpdate)
    (field : FieldSchema) (mutation : FieldMutation) : Prop where
  declared : table.fieldOf? update.base.typeName name = some field
  later : later = update.withMutation name mutation

theorem fieldOf_ok {α : Type} {next : FieldSchema → Updating α} {result : α}
    (hrun : (fieldOf table name >>= next).run.run update = (.ok result, later)) :
    ∃ field, table.fieldOf? update.base.typeName name = some field ∧ field.name = name ∧
      (next field).run.run update = (.ok result, later) := by
  obtain ⟨field, between, hfield, hnext⟩ := run_bind_ok hrun
  obtain ⟨type, htype, hfield⟩ := run_except_bind_ok (run_get_bind_ok hfield)
  obtain ⟨found, hfound, hfield⟩ := run_except_bind_ok hfield
  have hsame : field = found ∧ between = update := by
    split at hfield
    · cases hfield
    · exact run_pure_ok hfield
  have hdeclared := TypeSchema.requireField_eq_ok_iff.mp hfound
  rw [hsame.2, hsame.1] at hnext
  refine ⟨found, ?_, TypeSchema.name_of_field? hdeclared, hnext⟩
  rw [TableSchema.fieldOf?, TableSchema.requireType_eq_ok_iff.mp htype]
  exact hdeclared

theorem set_ok {value : Value} (hrun : (set table name value).run.run update = (.ok (), later)) :
    ∃ field, Makes table name update later field
      (.scalar (if value.isNull then .ofRemove else .ofSet value)) := by
  obtain ⟨field, hdeclared, rfl, hset⟩ := fieldOf_ok hrun
  cases hset
  exact ⟨field, hdeclared, rfl⟩

theorem increment_ok {amount : Number}
    (hrun : (increment table name amount).run.run update = (.ok (), later)) :
    ∃ field element before after, Makes table name update later field (.scalar after) ∧
      field.type = .scalar element ∧
      (update.mutation? name = none ∧ before = .none ∨
        update.mutation? name = some (.scalar before)) ∧
      ScalarDelta.increment before amount element = .ok after := by
  obtain ⟨field, hdeclared, rfl, hincrement⟩ := fieldOf_ok hrun
  obtain ⟨element, helement, hincrement⟩ := run_except_bind_ok hincrement
  split at hincrement
  · cases hincrement
  · rename_i hkind
    simp only [ne_eq, Bool.or_eq_true, decide_eq_true_eq, not_or, not_not] at hkind
    have htype := ValueType.eq_of hkind.1 (ValueType.requireElement_eq_ok_iff.mp helement)
    replace hincrement := run_get_bind_ok hincrement
    split at hincrement
    · rename_i hpending
      obtain ⟨after, hafter, hset⟩ := run_except_bind_ok hincrement
      cases hset
      exact ⟨field, element, .none, after, ⟨hdeclared, rfl⟩, htype, .inl ⟨hpending, rfl⟩, hafter⟩
    · rename_i before hpending
      obtain ⟨after, hafter, hset⟩ := run_except_bind_ok hincrement
      cases hset
      exact ⟨field, element, before, after, ⟨hdeclared, rfl⟩, htype, .inr hpending, hafter⟩
    · cases hincrement

theorem changeCollection_ok {kind : Kind} {empty : CollectionDelta}
    {change : CollectionDelta → ElementType → Except Error CollectionDelta}
    (hrun : (changeCollection table name kind empty change).run.run update = (.ok (), later)) :
    ∃ field element, field.type = ⟨kind, some element⟩ ∧
      ((∃ before after, Makes table name update later field (.collection after) ∧
          (update.mutation? name = none ∧ before = empty ∨
            update.mutation? name = some (.collection before)) ∧
          change before element = .ok after) ∨
        ∃ whole delta value, Makes table name update later field (.scalar (.ofSet value)) ∧
          update.mutation? name = some (.scalar whole) ∧ change empty element = .ok delta ∧
          delta.merge (whole.set.getD .null) element = .ok value) := by
  obtain ⟨field, hdeclared, rfl, hchange⟩ := fieldOf_ok hrun
  split at hchange
  · cases hchange
  · rename_i hkind
    obtain ⟨element, helement, hchange⟩ := run_except_bind_ok hchange
    have htype := ValueType.eq_of (not_not.mp hkind) (ValueType.requireElement_eq_ok_iff.mp helement)
    refine ⟨field, element, htype, ?_⟩
    replace hchange := run_get_bind_ok hchange
    split at hchange
    · rename_i hpending
      obtain ⟨_, between, hset, hchange⟩ := run_bind_ok hchange
      obtain ⟨after, hafter, hsetAfter⟩ := run_except_bind_ok hchange
      cases hset
      cases hsetAfter
      refine .inl ⟨empty, after, ⟨hdeclared, ?_⟩, .inl ⟨hpending, rfl⟩, hafter⟩
      rw [withMutation, ← Entries.put_put]
    · rename_i before hpending
      obtain ⟨after, hafter, hset⟩ := run_except_bind_ok hchange
      cases hset
      exact .inl ⟨before, after, ⟨hdeclared, rfl⟩, .inr hpending, hafter⟩
    · rename_i whole hpending
      obtain ⟨delta, hdelta, hchange⟩ := run_except_bind_ok hchange
      obtain ⟨value, hvalue, hset⟩ := run_except_bind_ok hchange
      cases hset
      exact .inr ⟨whole, delta, value, ⟨hdeclared, rfl⟩, hpending, hdelta, hvalue⟩
    · cases hchange

theorem clear_ok (hrun : (clear table name).run.run update = (.ok (), later)) :
    ∃ field delta, Makes table name update later field (.collection delta.clearing) ∧
      CollectionDelta.none? field.type.kind = some delta := by
  obtain ⟨field, hdeclared, rfl, hclear⟩ := fieldOf_ok hrun
  split at hclear
  · rename_i delta hdelta
    cases hclear
    exact ⟨field, delta, ⟨hdeclared, rfl⟩, hdelta⟩
  · cases hclear

/-- Entering an object finds what is pending for it, which is nothing at first. -/
theorem enter_ok {nested : ObjectUpdate}
    (hrun : (enter table name).run.run update = (.ok nested, later)) :
    ∃ field typeName, table.fieldOf? update.base.typeName name = some field ∧
      field.type = .scalar (.object typeName) ∧
      later = update.withMutation name (.object nested.base nested.mutations) ∧
      (update.mutation? name = none ∧ nested.base = update.nestedBase name typeName ∧
          nested.mutations = [] ∨
        update.mutation? name = some (.object nested.base nested.mutations)) := by
  obtain ⟨field, hdeclared, rfl, henter⟩ := fieldOf_ok hrun
  split at henter
  · rename_i typeName hkind helement
    refine ⟨field, typeName, hdeclared, ValueType.eq_of hkind helement, ?_⟩
    replace henter := run_get_bind_ok henter
    replace henter := run_get_bind_ok henter
    split at henter
    · rename_i hpending
      obtain ⟨type, htype, henter⟩ := run_except_bind_ok henter
      cases henter
      exact ⟨rfl, .inl ⟨hpending, rfl, rfl⟩⟩
    · rename_i base mutations hpending
      cases henter
      refine ⟨?_, .inr hpending⟩
      rw [withMutation, Entries.put_of_find? hpending]
    · cases henter
  · cases henter

/-- A change below an object changes what is pending for the object. -/
theorem within_ok {change : Updating Unit} {rest : List String}
    (hrun : (within table (name :: rest) change).run.run update = (.ok (), later)) :
    ∃ nested between nestedLater, (enter table name).run.run update = (.ok nested, between) ∧
      (within table rest change).run.run nested = (.ok (), nestedLater) ∧
      later = between.withMutation name (.object nestedLater.base nestedLater.mutations) := by
  obtain ⟨nested, between, henter, hwithin⟩ := run_bind_ok hrun
  rcases hnested : (within table rest change).run.run nested with ⟨_ | _, nestedLater⟩ <;>
    rw [hnested] at hwithin
  · cases hwithin
  · cases hwithin
    exact ⟨nested, between, nestedLater, henter, hnested, rfl⟩

end ObjectUpdate

end RecordStore
