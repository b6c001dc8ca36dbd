import RecordStore.Client.Write
import RecordStore.Proofs.Client.Transaction
import RecordStore.Proofs.Schema.Accepted
import RecordStore.Proofs.Update.Clauses
import RecordStore.Proofs.Update.Execution

/-!
# Updates that store nothing

Fields that are not persisted change in views alone, so an update whose changes are all empty or of
such fields asks nothing of the store. Objects are looked into as long as the base holds them. One
that the base lacks is stored whole, as an empty object even when none of its changed fields is
persisted.
-/

namespace RecordStore

open Expression (Builder Building Clauses Compiled)

variable {table : TableSchema}

/-! ### Changes that need not be stored -/

/-- Whether a field of a type is stored at all. -/
def TableSchema.persists (table : TableSchema) (typeName name : String) : Bool :=
  (table.fieldOf? typeName name).any FieldSchema.persist

mutual

/-- Whether a change is empty, or of an object of which it changes only fields that are not
persisted. -/
def FieldMutation.isTransient (table : TableSchema) : FieldMutation → Bool
  | .scalar delta => delta.isEmpty
  | .collection delta => delta.isEmpty
  | .object nested mutations => areTransient table nested.typeName mutations

def FieldMutation.areTransient (table : TableSchema) (typeName : String) :
    List (String × FieldMutation) → Bool
  | [] => true
  | (name, mutation) :: rest =>
    (!table.persists typeName name || mutation.isTransient table) && areTransient table typeName rest

end

mutual

/-- Whether a change stores nothing: as before, except that an absent object stores something as
soon as anything of it changes. -/
def FieldMutation.isIdle (table : TableSchema) (held : Value) : FieldMutation → Bool
  | .scalar delta => delta.isEmpty
  | .collection delta => delta.isEmpty
  | .object nested mutations =>
    if held.isNull then areEmpty mutations else areIdle table nested mutations

def FieldMutation.areIdle (table : TableSchema) (base : Record) :
    List (String × FieldMutation) → Bool
  | [] => true
  | (name, mutation) :: rest =>
    (!table.persists base.typeName name ||
      mutation.isIdle table ((base.get? name).getD .null)) && areIdle table base rest

end

mutual

/-- The base holds every object of which something changes, at every depth. -/
def FieldMutation.EntersHeld (held : Value) : FieldMutation → Prop
  | .scalar _ => True
  | .collection _ => True
  | .object nested mutations => held.isNull = false ∧ AllEnterHeld nested mutations

def FieldMutation.AllEnterHeld (base : Record) : List (String × FieldMutation) → Prop
  | [] => True
  | (name, mutation) :: rest =>
    mutation.EntersHeld ((base.get? name).getD .null) ∧ AllEnterHeld base rest

end

def Update.isTransient (table : TableSchema) (update : Update) : Bool :=
  FieldMutation.areTransient table update.object.base.typeName update.object.mutations

def Update.isIdle (table : TableSchema) (update : Update) : Bool :=
  FieldMutation.areIdle table update.object.base update.object.mutations

mutual

theorem FieldMutation.isIdle_of_isEmpty {held : Value} : (mutation : FieldMutation) →
    mutation.isEmpty = true → mutation.isIdle table held = true
  | .scalar _, hempty => hempty
  | .collection _, hempty => hempty
  | .object nested mutations, hempty => by
    rw [isIdle]
    split
    · exact hempty
    · exact areIdle_of_areEmpty mutations hempty

theorem FieldMutation.areIdle_of_areEmpty {base : Record} :
    (mutations : List (String × FieldMutation)) → areEmpty mutations = true →
    areIdle table base mutations = true
  | [], _ => rfl
  | (name, mutation) :: rest, hempty => by
    rw [areEmpty, Bool.and_eq_true] at hempty
    rw [areIdle, isIdle_of_isEmpty mutation hempty.1, Bool.or_true, Bool.true_and]
    exact areIdle_of_areEmpty rest hempty.2

end

mutual

theorem FieldMutation.isTransient_of_isIdle {held : Value} : (mutation : FieldMutation) →
    mutation.isIdle table held = true → mutation.isTransient table = true
  | .scalar _, hidle => hidle
  | .collection _, hidle => hidle
  | .object nested mutations, hidle => by
    rw [isIdle] at hidle
    split at hidle
    · exact areTransient_of_areIdle mutations (areIdle_of_areEmpty mutations hidle)
    · exact areTransient_of_areIdle mutations hidle

theorem FieldMutation.areTransient_of_areIdle {base : Record} :
    (mutations : List (String × FieldMutation)) → areIdle table base mutations = true →
    areTransient table base.typeName mutations = true
  | [], _ => rfl
  | (name, mutation) :: rest, hidle => by
    rw [areIdle, Bool.and_eq_true, Bool.or_eq_true] at hidle
    rw [areTransient, Bool.and_eq_true, Bool.or_eq_true]
    exact ⟨hidle.1.imp_right (isTransient_of_isIdle mutation), areTransient_of_areIdle rest hidle.2⟩

end

mutual

theorem FieldMutation.isIdle_of_entersHeld {held : Value} : (mutation : FieldMutation) →
    mutation.EntersHeld held → mutation.isIdle table held = mutation.isTransient table
  | .scalar _, _ => rfl
  | .collection _, _ => rfl
  | .object nested mutations, ⟨hheld, hnested⟩ => by
    rw [isIdle, isTransient, hheld, if_neg Bool.false_ne_true]
    exact areIdle_of_allEnterHeld mutations hnested

theorem FieldMutation.areIdle_of_allEnterHeld {base : Record} :
    (mutations : List (String × FieldMutation)) → AllEnterHeld base mutations →
    areIdle table base mutations = areTransient table base.typeName mutations
  | [], _ => rfl
  | (name, mutation) :: rest, ⟨hfirst, hrest⟩ => by
    rw [areIdle, areTransient, isIdle_of_entersHeld mutation hfirst,
      areIdle_of_allEnterHeld rest hrest]

end

/-! ### Clauses of changes that are not empty -/

namespace Expression.Clauses

/-- Clauses that say nothing at all when they are silent, and make some change when they are not. -/
inductive Silent : Bool → Clauses → Prop where
  | nothing : Silent true none
  | something {clauses : Clauses} (hacts : clauses.actions ≠ []) : Silent false clauses

variable {clauses added : Clauses}

theorem actions_append_eq_nil_iff :
    (clauses ++ added).actions = [] ↔ clauses.actions = [] ∧ added.actions = [] := by
  simp only [actions, append_set, append_remove, append_add, append_delete,
    List.append_eq_nil_iff]
  tauto

theorem gather_acts {α : Type} {write : α → Except Error Clauses} {items : List α}
    (hgather : gather write items = .ok clauses) (hne : items ≠ [])
    (hacts : ∀ item part, write item = .ok part → part.actions ≠ []) : clauses.actions ≠ [] := by
  cases items with
  | nil => exact absurd rfl hne
  | cons item rest =>
    obtain ⟨first, hfirst, hothers⟩ := bind_eq_ok_iff.mp hgather
    obtain ⟨others, _, hdone⟩ := bind_eq_ok_iff.mp hothers
    cases hdone
    exact fun hnil => hacts item first hfirst (actions_append_eq_nil_iff.mp hnil).1

theorem Silent.append {first second : Bool} (hclauses : Silent first clauses)
    (hadded : Silent second added) : Silent (first && second) (clauses ++ added) := by
  cases hclauses with
  | something hacts => exact .something fun hnil => hacts (actions_append_eq_nil_iff.mp hnil).1
  | nothing =>
    rw [none_append, Bool.true_and]
    exact hadded

theorem Silent.eq_none (hclauses : Silent true clauses) : clauses = none := by
  cases hclauses
  rfl

theorem Silent.hasUpdates {silent : Bool} {builder : Builder} (hclauses : Silent silent clauses)
    (hreads : builder.Reads clauses) : builder.hasUpdates = !silent := by
  cases hclauses with
  | nothing =>
    rw [Bool.not_true, Bool.eq_false_iff, Ne, hreads.hasUpdates, not_not]
    rfl
  | something hacts => exact hreads.hasUpdates.mpr hacts

end Expression.Clauses

open Expression.Clauses (Silent gather_acts actions_append_eq_nil_iff)

theorem valueClauses_acts {path : List String} {type : ValueType} {value : Value} {added : Clauses}
    (hadded : valueClauses table path type value = .ok added) : added.actions ≠ [] := by
  obtain ⟨stored, _, rfl⟩ := map_eq_ok_iff.mp hadded
  exact List.cons_ne_nil _ _

theorem fieldClauses_acts {path : List String} {field : FieldSchema} {value : Value}
    {added : Clauses} (hadded : fieldClauses table path field value = .ok added) :
    added.actions ≠ [] := by
  unfold fieldClauses at hadded
  split at hadded
  · cases hadded
    exact List.cons_ne_nil _ _
  · obtain ⟨stored, _, rfl⟩ := map_eq_ok_iff.mp hadded
    exact List.cons_ne_nil _ _

theorem increaseClauses_acts {path : List String} {amount : Number} {element : ElementType}
    {added : Clauses} (hadded : increaseClauses path amount element = .ok added) :
    added.actions ≠ [] := by
  unfold increaseClauses Builder.incrementClauses at hadded
  split at hadded
  · split at hadded <;> cases hadded <;> exact List.cons_ne_nil _ _
  · cases hadded

theorem elementClauses_acts {kind : Kind} {type : ValueType} {form : Attribute → Clauses}
    {elements : List Value} {added : Clauses}
    (hadded : elementClauses table kind type form elements = .ok added) (hne : elements ≠ [])
    (hform : ∀ encoded, (form encoded).actions ≠ []) : added.actions ≠ [] := by
  rw [elementClauses, if_neg (by simpa using hne)] at hadded
  obtain ⟨encoded, _, rfl⟩ := map_eq_ok_iff.mp hadded
  exact hform encoded

/-- A map delta writes its deletions. Without any it writes all of its updates, and without updates
all of its amounts. -/
theorem MapDelta.clauses_act {path : List String} {element : ElementType} {delta : MapDelta}
    {added : Clauses} (hempty : delta.isEmpty = false) (hclear : delta.clear = false)
    (hadded : delta.clauses table path element = .ok added) : added.actions ≠ [] := by
  obtain ⟨updates, hupdates, hadded⟩ := bind_eq_ok_iff.mp hadded
  obtain ⟨amounts, hamounts, hadded⟩ := bind_eq_ok_iff.mp hadded
  obtain ⟨deletes, hdeletes, hadded⟩ := bind_eq_ok_iff.mp hadded
  cases hadded
  rw [Ne, actions_append_eq_nil_iff, actions_append_eq_nil_iff]
  rintro ⟨hnoUpdates, hnoAmounts, hnoDeletes⟩
  have hdeleted : delta.deletes = [] := by
    by_contra hne
    refine gather_acts hdeletes hne (fun name part hpart => ?_) hnoDeletes
    cases hpart
    exact List.cons_ne_nil _ _
  have hupdated : delta.updates = [] := by
    by_contra hne
    refine gather_acts hupdates hne (fun entry part hpart => ?_) hnoUpdates
    rw [updateClauses, hdeleted, List.contains_nil, if_neg Bool.false_ne_true] at hpart
    exact valueClauses_acts hpart
  have hincreased : delta.amounts = [] := by
    by_contra hne
    refine gather_acts hamounts hne (fun entry part hpart => ?_) hnoAmounts
    rw [amountClauses, hdeleted, hupdated, List.contains_nil, Bool.or_false,
      if_neg (by exact Bool.false_ne_true)] at hpart
    exact increaseClauses_acts hpart
  rw [isEmpty, hclear, hdeleted, hupdated, hincreased] at hempty
  cases hempty

theorem CollectionDelta.clauses_act {path : List String} {type : ValueType} {held : Value}
    {delta : CollectionDelta} {added : Clauses} (hempty : delta.isEmpty = false)
    (hadded : delta.clauses table path type held = .ok added) : added.actions ≠ [] := by
  rw [clauses, hempty, if_neg Bool.false_ne_true] at hadded
  obtain ⟨element, _, hadded⟩ := bind_eq_ok_iff.mp hadded
  obtain ⟨merged, _, hadded⟩ := bind_eq_ok_iff.mp hadded
  split at hadded
  · exact valueClauses_acts hadded
  rename_i hwhole
  rw [Bool.or_eq_true, not_or, Bool.not_eq_true] at hwhole
  cases delta with
  | map delta => exact MapDelta.clauses_act hempty hwhole.1 hadded
  | list delta =>
    refine elementClauses_acts hadded (fun hnil => ?_) fun _ => List.cons_ne_nil _ _
    rw [isEmpty, ListDelta.isEmpty, hnil, show delta.clear = false from hwhole.1] at hempty
    cases hempty
  | set delta =>
    dsimp only at hadded
    split at hadded
    · exact valueClauses_acts hadded
    obtain ⟨adds, hadds, hadded⟩ := bind_eq_ok_iff.mp hadded
    obtain ⟨deletes, hdeletes, hadded⟩ := bind_eq_ok_iff.mp hadded
    cases hadded
    rw [Ne, actions_append_eq_nil_iff]
    rintro ⟨hnoAdds, hnoDeletes⟩
    have hadded : delta.adds = [] := by
      by_contra hne
      exact elementClauses_acts hadds hne (fun _ => List.cons_ne_nil _ _) hnoAdds
    have hdeleted : delta.deletes = [] := by
      by_contra hne
      exact elementClauses_acts hdeletes hne (fun _ => List.cons_ne_nil _ _) hnoDeletes
    rw [isEmpty, SetDelta.isEmpty, hadded, hdeleted,
      show delta.clear = false from hwhole.1] at hempty
    cases hempty

theorem ScalarDelta.clauses_act {field : FieldSchema} {path : List String} {held : Value}
    {delta : ScalarDelta} {added : Clauses} (hempty : delta.isEmpty = false)
    (hadded : (FieldMutation.scalar delta).clauses table field path held = .ok added) :
    added.actions ≠ [] := by
  rw [FieldMutation.clauses] at hadded
  split at hadded
  · cases hadded
    exact List.cons_ne_nil _ _
  rename_i hremove
  split at hadded
  · exact fieldClauses_acts hadded
  · obtain ⟨element, _, hadded⟩ := bind_eq_ok_iff.mp hadded
    split at hadded
    · exact increaseClauses_acts hadded
    · obtain ⟨latest, _, hadded⟩ := bind_eq_ok_iff.mp hadded
      exact fieldClauses_acts hadded
  · rename_i hset hamount
    rw [isEmpty, hset, hamount, Bool.eq_false_of_not_eq_true hremove] at hempty
    cases hempty

/-! ### Clauses of idle changes -/

theorem TableSchema.persists_eq {typeName name : String} {type : TypeSchema} {field : FieldSchema}
    (htype : table.requireType typeName = .ok type) (hfield : type.requireField name = .ok field) :
    table.persists typeName name = field.persist := by
  rw [persists, fieldOf?, requireType_eq_ok_iff.mp htype, Option.bind_some,
    TypeSchema.requireField_eq_ok_iff.mp hfield, Option.any_some]

mutual

theorem FieldMutation.clauses_silent {field : FieldSchema} {path : List String} {held : Value} :
    (mutation : FieldMutation) → {added : Clauses} → mutation.isEmpty = false →
    mutation.clauses table field path held = .ok added → Silent (mutation.isIdle table held) added
  | .scalar delta, _, hempty, hadded => by
    rw [isIdle, show delta.isEmpty = false from hempty]
    exact .something (ScalarDelta.clauses_act hempty hadded)
  | .collection delta, _, hempty, hadded => by
    rw [isIdle, show delta.isEmpty = false from hempty]
    refine .something ?_
    rw [clauses] at hadded
    split at hadded
    · exact CollectionDelta.clauses_act hempty hadded
    · obtain ⟨element, _, hadded⟩ := bind_eq_ok_iff.mp hadded
      obtain ⟨latest, _, hadded⟩ := bind_eq_ok_iff.mp hadded
      exact fieldClauses_acts hadded
  | .object nested mutations, _, hempty, hadded => by
    rw [clauses] at hadded
    obtain ⟨type, htype, hadded⟩ := bind_eq_ok_iff.mp hadded
    rw [isIdle]
    split at hadded
    · -- An absent object is set whole, whatever becomes of its fields.
      rename_i hnull
      rw [if_pos hnull, show areEmpty mutations = false from hempty]
      obtain ⟨record, _, hadded⟩ := bind_eq_ok_iff.mp hadded
      exact .something (fieldClauses_acts hadded)
    · rename_i hheld
      rw [if_neg hheld]
      exact objectClauses_silent htype mutations hadded

theorem FieldMutation.objectClauses_silent {type : TypeSchema} {base : Record}
    {path : List String} (htype : table.requireType base.typeName = .ok type) :
    (mutations : List (String × FieldMutation)) → {added : Clauses} →
    objectClauses table type base path mutations = .ok added →
    Silent (areIdle table base mutations) added
  | [], _, hadded => by
    rw [objectClauses] at hadded
    cases hadded
    exact .nothing
  | (name, mutation) :: rest, _, hadded => by
    rw [objectClauses] at hadded
    obtain ⟨field, hfield, hadded⟩ := bind_eq_ok_iff.mp hadded
    obtain ⟨others, hothers, hadded⟩ := bind_eq_ok_iff.mp hadded
    have hrest := objectClauses_silent htype rest hothers
    rw [areIdle, TableSchema.persists_eq htype hfield]
    split at hadded
    · rename_i hstored
      rw [Bool.and_eq_true, Bool.not_eq_true'] at hstored
      obtain ⟨first, hfirst, rfl⟩ := map_eq_ok_iff.mp hadded
      rw [hstored.1, Bool.not_true, Bool.false_or]
      exact (clauses_silent mutation hstored.2 hfirst).append hrest
    · -- A change that is left out is empty, or its field is not persisted.
      rename_i hskipped
      cases hadded
      have hsilent : (!field.persist ||
          mutation.isIdle table ((base.get? name).getD .null)) = true := by
        rw [Bool.and_eq_true, not_and_or, Bool.not_eq_true, Bool.not_eq_true,
          Bool.not_eq_false'] at hskipped
        rw [Bool.or_eq_true, Bool.not_eq_true']
        exact hskipped.imp_right (isIdle_of_isEmpty mutation)
      rw [hsilent, Bool.true_and]
      exact hrest

end

/-! ### Idle updates -/

theorem ObjectUpdate.adds_silent (table : TableSchema) (update : ObjectUpdate) :
    (update.compile table).Adds fun _ added =>
      Silent (FieldMutation.areIdle table update.base update.mutations) added := by
  unfold ObjectUpdate.compile
  refine .bind_except fun type htype => ?_
  exact (FieldMutation.adds_compileFields table type update.base [] update.mutations).mono
    fun _ added hadded => FieldMutation.objectClauses_silent htype _ hadded

namespace Update

variable {update : Update} {compiled : Compiled}

/-- An update that compiles writes something unless it is idle. One that writes nothing has neither
an update expression nor a condition, and sending it answers the view and leaves the session as it
was. -/
theorem writes_eq_not_isIdle (hcompile : update.compile table = .ok compiled) :
    update.writes table = .ok (!update.isIdle table) ∧
      (update.writes table = .ok false → compiled.update = none ∧ compiled.condition = none ∧
        ∀ (client : Client) (session : Session),
          (client.sendUpdate table update).run.run session = (update.view table, session)) := by
  obtain ⟨builder, hrun, hcases⟩ := compile_cases hcompile
  obtain ⟨clauses, hsilent, hreads⟩ := (update.object.adds_silent table).run_ok hrun
  have hwrites : update.writes table = .ok builder.hasUpdates := by
    rw [writes, hrun]
    rfl
  have hidle : builder.hasUpdates = !update.isIdle table := hsilent.hasUpdates hreads
  refine ⟨by rw [hwrites, hidle], fun hnothing => ?_⟩
  have hnone : builder.hasUpdates = false := Except.ok.inj (hwrites.symm.trans hnothing)
  rcases hcases with ⟨_, rfl⟩ | ⟨hsome, _⟩
  case inr =>
    rw [hnone] at hsome
    cases hsome
  have hupdate := (Builder.update_eq_none_iff builder).mpr hnone
  have hclauses : clauses = .none := by
    rw [hidle, Bool.not_eq_false'] at hnone
    exact (hnone ▸ hsilent : Silent true clauses).eq_none
  refine ⟨hupdate, hreads.condition_eq_none (by rw [hclauses]; rfl), fun client session => ?_⟩
  rw [Client.sendUpdate, hcompile, liftM_ok, pure_bind]
  simp only [hupdate]
  exact run_except _ _

/-- An idle update changes nothing but fields that are not persisted, at every depth. The converse
needs the base to hold the objects that the update enters. -/
theorem isTransient_of_isIdle (hidle : update.isIdle table = true) :
    update.isTransient table = true :=
  FieldMutation.areTransient_of_areIdle _ hidle

theorem isIdle_eq_isTransient
    (hheld : FieldMutation.AllEnterHeld update.object.base update.object.mutations) :
    update.isIdle table = update.isTransient table :=
  FieldMutation.areIdle_of_allEnterHeld _ hheld

/-- Residents with the place where they live, about which a note is kept in memory only. -/
def residentsTable : TableSchema where
  name := "residents"
  namespaceName := ""
  rootType := "Resident"
  version := 1
  optimisticLocking := true
  migrationsEnabled := false
  versionAttribute := "_v"
  revisionAttribute := "_rev"
  keys := ⟨⟨"id", "id", .string⟩, none⟩
  indexes := []
  expiryAttribute := none
  types := [
    ⟨"Resident", [
      ⟨"id", "id", .scalar .string, none, true, true, false, false, false, false, false⟩,
      ⟨"home", "home", .scalar (.object "Place"), none, true, true, false, false, false, false,
        false⟩]⟩,
    ⟨"Place", [
      ⟨"street", "street", .scalar .string, none, true, true, false, false, false, false, false⟩,
      ⟨"note", "note", .scalar .string, none, false, true, false, false, false, false, false⟩]⟩]

def noteHome (base : Record) : Except Error Update := do
  (← start residentsTable base).changeAll residentsTable
    [⟨["home"], "note", .set (.string "blue door")⟩]

/-- A note about a home that is stored stays in memory. -/
theorem writes_eq_not_isIdle_housed : ∃ update compiled,
    noteHome ⟨"Resident", [("id", .string "r"),
      ("home", .object "Place" [("street", .string "Elm")] 0)], 1⟩ = .ok update ∧
    update.compile residentsTable = .ok compiled ∧ update.writes residentsTable = .ok false ∧
    compiled.update = none ∧ compiled.condition = none ∧
    ∀ (client : Client) (session : Session),
      (client.sendUpdate residentsTable update).run.run session =
        (update.view residentsTable, session) := by
  obtain ⟨update, hupdate⟩ : ∃ update, noteHome ⟨"Resident", [("id", .string "r"),
    ("home", .object "Place" [("street", .string "Elm")] 0)], 1⟩ = .ok update := ⟨_, rfl⟩
  have hcompile : update.compile residentsTable = .ok ⟨none, none, none, none, none, none⟩ := by
    cases hupdate
    rfl
  obtain ⟨hwrites, hnothing⟩ := writes_eq_not_isIdle hcompile
  have hidle : update.isIdle residentsTable = true := by
    cases hupdate
    rfl
  rw [hidle, Bool.not_true] at hwrites
  exact ⟨update, _, hupdate, hcompile, hwrites, hnothing hwrites⟩

/-- A note about a home that is absent stores an empty home. -/
theorem writes_note_of_absent : ∃ update compiled,
    noteHome ⟨"Resident", [("id", .string "r")], 1⟩ = .ok update ∧
    update.compile residentsTable = .ok compiled ∧ update.isTransient residentsTable = true ∧
    update.writes residentsTable = .ok true := by
  obtain ⟨update, hupdate⟩ : ∃ update,
    noteHome ⟨"Resident", [("id", .string "r")], 1⟩ = .ok update := ⟨_, rfl⟩
  have hstored : ((noteHome ⟨"Resident", [("id", .string "r")], 1⟩ >>= fun update =>
      update.compile residentsTable).toOption.bind Compiled.update).isSome = true := by
    decide +kernel
  rw [hupdate, ok_bind] at hstored
  cases hcompile : update.compile residentsTable with
  | error error =>
    rw [hcompile] at hstored
    cases hstored
  | ok compiled =>
    rw [hcompile] at hstored
    refine ⟨update, compiled, hupdate, hcompile, ?_, ?_⟩
    · cases hupdate
      rfl
    · rw [writes_eq hcompile]
      exact congrArg Except.ok hstored

end Update

end RecordStore
