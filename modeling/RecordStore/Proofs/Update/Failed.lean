import RecordStore.Proofs.Update.Empty

/-!
# Changes that fail

A change that fails leaves what was pending as it was. The one exception is an increment of an entry
of a map whose elements are not numbers: when nothing is pending for the map, the refusal leaves an
empty change behind. It writes nothing, but it shows an empty map in views when the base has none.
-/

namespace RecordStore

open Expression (Building)

namespace ObjectUpdate

variable {table : TableSchema} {name : String} {update later : ObjectUpdate} {error : Error}

/-! ### Refused changes -/

/-- A field is looked up without touching it. -/
theorem fieldOf_error {α : Type} {next : FieldSchema → Updating α}
    (hrun : (fieldOf table name >>= next).run.run update = (.error error, later)) :
    later = update ∨ ∃ field, table.fieldOf? update.base.typeName name = some field ∧
      field.name = name ∧ (next field).run.run update = (.error error, later) := by
  rcases run_bind_error hrun with hfield | ⟨field, between, hfield, hnext⟩
  · left
    rcases run_except_bind_error (run_get_bind_error hfield) with ⟨_, rfl⟩ | ⟨type, _, hfield⟩
    · rfl
    · rcases run_except_bind_error hfield with ⟨_, rfl⟩ | ⟨field, _, hfield⟩
      · rfl
      · split at hfield <;> cases hfield
        rfl
  · right
    rw [← bind_pure (fieldOf table name)] at hfield
    obtain ⟨found, hdeclared, hname, hpure⟩ := fieldOf_ok hfield
    cases hpure
    exact ⟨field, hdeclared, hname, hnext⟩

theorem set_error {value : Value}
    (hrun : (set table name value).run.run update = (.error error, later)) : later = update := by
  rcases fieldOf_error hrun with rfl | ⟨field, _, _, hset⟩
  · rfl
  · cases hset

theorem increment_error {amount : Number}
    (hrun : (increment table name amount).run.run update = (.error error, later)) :
    later = update := by
  rcases fieldOf_error hrun with rfl | ⟨field, _, _, hincrement⟩
  · rfl
  · rcases run_except_bind_error hincrement with ⟨_, rfl⟩ | ⟨element, _, hincrement⟩
    · rfl
    · split at hincrement
      · cases hincrement
        rfl
      · replace hincrement := run_get_bind_error hincrement
        split at hincrement
        · cases hincrement
        · rcases run_except_bind_error hincrement with ⟨_, rfl⟩ | ⟨after, _, hset⟩
          · rfl
          · cases hset
        · cases hincrement
          rfl

theorem clear_error (hrun : (clear table name).run.run update = (.error error, later)) :
    later = update := by
  rcases fieldOf_error hrun with rfl | ⟨field, _, _, hclear⟩
  · rfl
  · split at hclear <;> cases hclear
    rfl

theorem enter_error (hrun : (enter table name).run.run update = (.error error, later)) :
    later = update := by
  rcases fieldOf_error hrun with rfl | ⟨field, _, _, henter⟩
  · rfl
  · split at henter
    · replace henter := run_get_bind_error henter
      replace henter := run_get_bind_error henter
      split at henter
      · rcases run_except_bind_error henter with ⟨_, rfl⟩ | ⟨type, _, hset⟩
        · rfl
        · cases hset
      · cases henter
      · cases henter
        rfl
    · cases henter
      rfl

/-- A refused change of a collection leaves an empty change behind when the change itself fails and
nothing was pending before. -/
theorem changeCollection_error {kind : Kind} {empty : CollectionDelta}
    {change : CollectionDelta → ElementType → Except Error CollectionDelta}
    (hrun : (changeCollection table name kind empty change).run.run update =
      (.error error, later)) :
    later = update ∨ ∃ field element, table.fieldOf? update.base.typeName name = some field ∧
      field.type = ⟨kind, some element⟩ ∧ update.mutation? name = none ∧
      change empty element = .error error ∧
      later = update.withMutation name (.collection empty) := by
  rcases fieldOf_error hrun with rfl | ⟨field, hdeclared, rfl, hchange⟩
  · exact .inl rfl
  · split at hchange
    · cases hchange
      exact .inl rfl
    · rename_i hkind
      rcases run_except_bind_error hchange with ⟨_, rfl⟩ | ⟨element, helement, hchange⟩
      · exact .inl rfl
      · replace hchange := run_get_bind_error hchange
        split at hchange
        · rename_i hpending
          rcases run_bind_error hchange with hset | ⟨_, between, hset, hchange⟩
          · cases hset
          · cases hset
            rcases run_except_bind_error hchange with ⟨hfailed, rfl⟩ | ⟨after, _, hset⟩
            · have htype := ValueType.eq_of (not_not.mp hkind)
                (ValueType.requireElement_eq_ok_iff.mp helement)
              -- Only here was the field touched before its change was tried.
              exact .inr ⟨field, element, hdeclared, htype, hpending, hfailed, rfl⟩
            · cases hset
        · rcases run_except_bind_error hchange with ⟨_, rfl⟩ | ⟨after, _, hset⟩
          · exact .inl rfl
          · cases hset
        · rcases run_except_bind_error hchange with ⟨_, rfl⟩ | ⟨delta, _, hchange⟩
          · exact .inl rfl
          · rcases run_except_bind_error hchange with ⟨_, rfl⟩ | ⟨value, _, hset⟩
            · exact .inl rfl
            · cases hset
        · cases hchange
          exact .inl rfl

/-- A change that cannot fail by itself leaves nothing behind when it is refused. -/
theorem changeCollection_error_of_total {kind : Kind} {empty : CollectionDelta}
    {change : CollectionDelta → ElementType → Except Error CollectionDelta}
    (hrun : (changeCollection table name kind empty change).run.run update =
      (.error error, later))
    (htotal : ∀ element, (change empty element).isOk = true) : later = update := by
  rcases changeCollection_error hrun with rfl | ⟨_, element, _, _, _, hfailed, _⟩
  · rfl
  · have hok := htotal element
    rw [hfailed] at hok
    cases hok

theorem putEntry_error {key : String} {value : Value}
    (hrun : (putEntry table name key value).run.run update = (.error error, later)) :
    later = update := by
  unfold putEntry changeMap at hrun
  exact changeCollection_error_of_total hrun fun _ => rfl

theorem deleteEntry_error {key : String}
    (hrun : (deleteEntry table name key).run.run update = (.error error, later)) :
    later = update := by
  unfold deleteEntry changeMap at hrun
  exact changeCollection_error_of_total hrun fun _ => rfl

theorem addElement_error {value : Value}
    (hrun : (addElement table name value).run.run update = (.error error, later)) :
    later = update := by
  unfold addElement changeSet at hrun
  exact changeCollection_error_of_total hrun fun _ => rfl

theorem deleteElement_error {value : Value}
    (hrun : (deleteElement table name value).run.run update = (.error error, later)) :
    later = update := by
  unfold deleteElement changeSet at hrun
  exact changeCollection_error_of_total hrun fun _ => rfl

theorem append_error {values : List Value}
    (hrun : (append table name values).run.run update = (.error error, later)) :
    later = update := by
  unfold append at hrun
  exact changeCollection_error_of_total hrun fun _ => rfl

theorem incrementEntry_error {key : String} {amount : Number}
    (hrun : (incrementEntry table name key amount).run.run update = (.error error, later)) :
    later = update ∨ ∃ field element, table.fieldOf? update.base.typeName name = some field ∧
      field.type = ⟨.map, some element⟩ ∧ element.isNumeric = false ∧
      update.mutation? name = none ∧ error = .contract (.incrementEntry element) ∧
      later = update.withMutation name (.collection (.map .none)) := by
  unfold incrementEntry changeMap at hrun
  rcases changeCollection_error hrun with
    rfl | ⟨field, element, hdeclared, htype, huntouched, hfailed, hlater⟩
  · exact .inl rfl
  · right
    dsimp only at hfailed
    split at hfailed
    · cases hfailed
    · rename_i hnumeric
      cases hfailed
      exact ⟨field, element, hdeclared, htype, Bool.eq_false_iff.mpr hnumeric, huntouched, rfl,
        hlater⟩

end ObjectUpdate

/-- An increment of an entry of a map whose elements are not numbers, with nothing pending for the
map, which is refused after the map was touched. -/
structure RefusedLate (table : TableSchema) (name : String) (mutation : Mutation)
    (update : ObjectUpdate) (error : Error) (later : ObjectUpdate) (field : FieldSchema)
    (element : ElementType) : Prop where
  mutation : ∃ key amount, mutation = .incrementEntry key amount
  declared : table.fieldOf? update.base.typeName name = some field
  type : field.type = ⟨.map, some element⟩
  notNumeric : element.isNumeric = false
  untouched : update.mutation? name = none
  error : error = .contract (.incrementEntry element)
  later : later = update.withMutation name (.collection (.map .none))

section Failed

variable {table : TableSchema} {name : String} {mutation : Mutation} {update later : ObjectUpdate}
  {error : Error}

/-- A change that fails leaves what was pending as it was, unless it is refused late. -/
theorem Mutation.make_error (hrun : (mutation.make table name).run.run update =
      (.error error, later)) :
    later = update ∨ ∃ field element,
      RefusedLate table name mutation update error later field element := by
  cases mutation with
  | set value => exact .inl (ObjectUpdate.set_error hrun)
  | remove => exact .inl (ObjectUpdate.set_error hrun)
  | increment amount => exact .inl (ObjectUpdate.increment_error hrun)
  | putEntry key value => exact .inl (ObjectUpdate.putEntry_error hrun)
  | incrementEntry key amount =>
    rcases ObjectUpdate.incrementEntry_error hrun with
      rfl | ⟨field, element, hdeclared, htype, hnumeric, huntouched, herror, hlater⟩
    · exact .inl rfl
    · exact .inr ⟨field, element, ⟨key, amount, rfl⟩, hdeclared, htype, hnumeric, huntouched,
        herror, hlater⟩
  | deleteEntry key => exact .inl (ObjectUpdate.deleteEntry_error hrun)
  | addElement value => exact .inl (ObjectUpdate.addElement_error hrun)
  | deleteElement value => exact .inl (ObjectUpdate.deleteElement_error hrun)
  | append values => exact .inl (ObjectUpdate.append_error hrun)
  | clear => exact .inl (ObjectUpdate.clear_error hrun)
  | enter =>
    rcases run_bind_error hrun with henter | ⟨_, _, _, hpure⟩
    · exact .inl (ObjectUpdate.enter_error henter)
    · cases hpure

/-! ### What a refused change leaves behind -/

theorem FieldMutation.areEmpty_append (first rest : List (String × FieldMutation)) :
    areEmpty (first ++ rest) = (areEmpty first && areEmpty rest) := by
  induction first with
  | nil => rfl
  | cons entry others ih => rw [List.cons_append, areEmpty, areEmpty, ih, Bool.and_assoc]

theorem FieldMutation.compileFields_append (type : TypeSchema) (base : Record)
    (path : List String) (first rest : List (String × FieldMutation)) :
    compileFields table type base path (first ++ rest) =
      (compileFields table type base path first >>= fun _ =>
        compileFields table type base path rest) := by
  induction first with
  | nil => rw [List.nil_append, compileFields, pure_bind]
  | cons entry others ih =>
    obtain ⟨name, mutation⟩ := entry
    rw [List.cons_append, compileFields, compileFields, ih, bind_assoc]
    congr 1
    funext field
    split
    · simp only [bind_assoc]
    · rfl

theorem FieldMutation.viewFields_append (type : TypeSchema) (base before : Record)
    (first rest : List (String × FieldMutation)) :
    viewFields table type base before (first ++ rest) =
      (viewFields table type base before first >>= fun viewed =>
        viewFields table type base viewed rest) := by
  induction first generalizing before with
  | nil => rfl
  | cons entry others ih =>
    obtain ⟨name, mutation⟩ := entry
    rw [List.cons_append, viewFields, viewFields, bind_assoc]
    simp only [bind_assoc, ih]

/-- Fields without a pending change are viewed as they are. -/
theorem FieldMutation.get?_viewFields {type : TypeSchema} {base before viewed : Record}
    {mutations : List (String × FieldMutation)} (hnone : Entries.find? mutations name = none)
    (hview : viewFields table type base before mutations = .ok viewed) :
    viewed.get? name = before.get? name := by
  induction mutations generalizing before with
  | nil =>
    rw [viewFields] at hview
    cases hview
    rfl
  | cons entry rest ih =>
    obtain ⟨other, mutation⟩ := entry
    rw [Entries.find?_cons] at hnone
    split at hnone
    · cases hnone
    · rename_i hother
      rw [viewFields] at hview
      obtain ⟨field, _, hview⟩ := bind_eq_ok_iff.mp hview
      obtain ⟨value, _, hview⟩ := bind_eq_ok_iff.mp hview
      rw [ih hnone hview, Record.get?_set_of_ne _ _ hother]

namespace RefusedLate

variable {field : FieldSchema} {element : ElementType}

theorem mutations (hrefused : RefusedLate table name mutation update error later field element) :
    later.mutations = update.mutations ++ [(name, .collection (.map .none))] := by
  rw [hrefused.later]
  exact Entries.put_of_fresh _ hrefused.untouched

theorem isEmpty (hrefused : RefusedLate table name mutation update error later field element) :
    FieldMutation.areEmpty later.mutations = FieldMutation.areEmpty update.mutations := by
  rw [hrefused.mutations, FieldMutation.areEmpty_append]
  exact Bool.and_true _

theorem compile (hrefused : RefusedLate table name mutation update error later field element) :
    later.compile table = update.compile table := by
  have hbase : later.base = update.base := by rw [hrefused.later]; rfl
  obtain ⟨type, htype, _⟩ := Option.bind_eq_some_iff.mp hrefused.declared
  have hnothing : FieldMutation.compileFields table type update.base []
      [(name, .collection (.map .none))] = pure () :=
    FieldMutation.compileFields_of_areEmpty htype (List.forall_mem_singleton.mpr
      ⟨field, hrefused.declared⟩) rfl []
  unfold ObjectUpdate.compile
  rw [hrefused.mutations, hbase, TableSchema.requireType_eq_ok_iff.mpr htype, liftM_ok, pure_bind,
    pure_bind, FieldMutation.compileFields_append, hnothing]
  exact bind_pure _

/-- The view shows the map as merged with no change, which makes an absent map an empty one. -/
theorem view (hrefused : RefusedLate table name mutation update error later field element) :
    later.view table = (do
      let record ← update.view table
      let value ← MapDelta.none.merge ((update.base.get? name).getD .null) element
      return record.set name (field.settled value)) := by
  have hbase : later.base = update.base := by rw [hrefused.later]; rfl
  obtain ⟨type, htype, _⟩ := Option.bind_eq_some_iff.mp hrefused.declared
  have helement : field.type.requireElement = .ok element := by
    rw [hrefused.type]
    rfl
  unfold ObjectUpdate.view
  rw [hrefused.mutations, hbase, TableSchema.requireType_eq_ok_iff.mpr htype, ok_bind, ok_bind,
    FieldMutation.viewFields_append]
  congr 1
  funext record
  rw [FieldMutation.viewFields, TableSchema.requireField_of_fieldOf? htype hrefused.declared,
    ok_bind, FieldMutation.latest, helement, ok_bind]
  rfl

end RefusedLate

/-- A change that fails changes nothing that is written. -/
theorem Mutation.compile_of_error
    (hrun : (mutation.make table name).run.run update = (.error error, later)) :
    later.compile table = update.compile table := by
  rcases mutation.make_error hrun with rfl | ⟨field, element, hrefused⟩
  · rfl
  · exact hrefused.compile

/-- A change that fails changes nothing that a view shows, where an increment of an entry is made on
a map that the base holds. -/
theorem Mutation.view_of_error
    (hrun : (mutation.make table name).run.run update = (.error error, later))
    (hheld : ∀ key amount, mutation = .incrementEntry key amount →
      ∃ entries, update.base.get? name = some (.map entries)) :
    later.view table = update.view table := by
  rcases mutation.make_error hrun with rfl | ⟨field, element, hrefused⟩
  · rfl
  · obtain ⟨key, amount, hmutation⟩ := hrefused.mutation
    obtain ⟨entries, hentries⟩ := hheld key amount hmutation
    rw [hrefused.view, hentries]
    cases hview : update.view table with
    | error error => rfl
    | ok record =>
      obtain ⟨type, _, hfields⟩ := bind_eq_ok_iff.mp hview
      have hshown : record.get? name = some (.map entries) :=
        (FieldMutation.get?_viewFields hrefused.untouched hfields).trans hentries
      rw [ok_bind, Option.getD_some, MapDelta.merge_none, ok_bind,
        field.settled_of_present rfl, Record.set_of_get? hshown rfl]
      rfl

end Failed

end RecordStore
