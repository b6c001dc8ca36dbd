import RecordStore.Proofs.Record.Fields
import RecordStore.Proofs.Update.Pending

/-!
# Changes pending and changes made

What is pending for an object, seen through its view, is what the object shows once the same changes
are made at once. A relation between the two holds while nothing is pending, each change keeps it, and
the view shows what it relates.
-/

namespace RecordStore

/-! ### What is pending mirrors what was made -/

/-- The fields that no change touched are those of the base. -/
structure Execution.Frames (table : TableSchema) (base : Record)
    (mutations : List (String × FieldMutation)) (state : Execution) : Prop where
  conforms : base.Conforms table
  distinct : (Entries.names mutations).Nodup
  declared : ∀ name ∈ Entries.names mutations, (table.fieldOf? base.typeName name).isSome
  heldType : state.held.typeName = base.typeName
  heldNames : (Entries.names state.held.fields).Nodup
  shownType : state.shown.typeName = base.typeName
  shownRevision : state.shown.revision = base.revision
  shownNames : (Entries.names state.shown.fields).Nodup
  shownPresent : ∀ name, state.shown.get? name ≠ some .null
  held : ∀ name ∉ Entries.names mutations, state.held.get? name = base.get? name
  shown : ∀ name ∉ Entries.names mutations, state.shown.get? name = base.get? name

mutual

/-- What a pending change leaves of the base of a field: what the field holds and what it shows. -/
inductive FieldMutation.Leaves (table : TableSchema) :
    FieldSchema → Value → FieldMutation → Value → Value → Prop where
  | scalar {field : FieldSchema} {base held : Value} {delta : ScalarDelta}
    (leaves : delta.Leaves field.type base held) :
    FieldMutation.Leaves table field base (.scalar delta) held (field.settled held)
  | collection {field : FieldSchema} {base held : Value} {delta : CollectionDelta}
    (leaves : delta.Leaves field.type base held) (present : held.isNull = false) :
    FieldMutation.Leaves table field base (.collection delta) held (field.settled held)
  | object {field : FieldSchema} {base : Value} {nested : Record}
    {mutations : List (String × FieldMutation)} {state : Execution}
    (declared : field.type = .scalar (.object nested.typeName))
    (mirrors : Execution.Mirrors table nested mutations state) :
    FieldMutation.Leaves table field base (.object nested mutations) state.held.toValue
      state.shown.toValue

/-- The changes that are pending for an object were made at once. -/
inductive Execution.Mirrors (table : TableSchema) :
    Record → List (String × FieldMutation) → Execution → Prop where
  | intro {base : Record} {mutations : List (String × FieldMutation)} {state : Execution}
    (frames : state.Frames table base mutations)
    (touched : ∀ name mutation field, Entries.find? mutations name = some mutation →
      table.fieldOf? base.typeName name = some field →
      FieldMutation.Leaves table field ((base.get? name).getD .null) mutation
        ((state.held.get? name).getD .null) ((state.shown.get? name).getD .null)) :
    Execution.Mirrors table base mutations state

end

namespace FieldMutation.Leaves

variable {table : TableSchema} {field : FieldSchema} {base held shown : Value}

theorem of_scalar {delta : ScalarDelta}
    (hleaves : FieldMutation.Leaves table field base (.scalar delta) held shown) :
    delta.Leaves field.type base held ∧ shown = field.settled held := by
  cases hleaves with
  | scalar leaves => exact ⟨leaves, rfl⟩

theorem of_collection {delta : CollectionDelta}
    (hleaves : FieldMutation.Leaves table field base (.collection delta) held shown) :
    delta.Leaves field.type base held ∧ held.isNull = false ∧ shown = field.settled held := by
  cases hleaves with
  | collection leaves present => exact ⟨leaves, present, rfl⟩

theorem of_object {nested : Record} {mutations : List (String × FieldMutation)}
    (hleaves : FieldMutation.Leaves table field base (.object nested mutations) held shown) :
    ∃ state, held = state.held.toValue ∧ shown = state.shown.toValue ∧
      field.type = .scalar (.object nested.typeName) ∧
      Execution.Mirrors table nested mutations state := by
  cases hleaves with
  | object declared mirrors => exact ⟨_, rfl, rfl, declared, mirrors⟩

end FieldMutation.Leaves

namespace Execution

variable {table : TableSchema} {base : Record} {mutations : List (String × FieldMutation)}
  {state : Execution} {name : String} {field : FieldSchema} {mutation : FieldMutation}

theorem Mirrors.frames (hmirrors : Mirrors table base mutations state) :
    state.Frames table base mutations := by
  cases hmirrors
  assumption

theorem Mirrors.touched (hmirrors : Mirrors table base mutations state)
    (hpending : Entries.find? mutations name = some mutation)
    (hfield : table.fieldOf? base.typeName name = some field) :
    mutation.Leaves table field ((base.get? name).getD .null) ((state.held.get? name).getD .null)
      ((state.shown.get? name).getD .null) := by
  cases hmirrors with
  | intro _ touched => exact touched name mutation field hpending hfield

theorem Mirrors.untouched (hmirrors : Mirrors table base mutations state)
    (hnone : Entries.find? mutations name = none) :
    state.held.get? name = base.get? name ∧ state.shown.get? name = base.get? name := by
  have hfresh : name ∉ Entries.names mutations := fun hmem => Entries.mem_names_iff.mp hmem hnone
  exact ⟨hmirrors.frames.held name hfresh, hmirrors.frames.shown name hfresh⟩

/-- Writing a field of the object is leaving something else pending for it. -/
theorem Mirrors.write {held shown : Value} (hmirrors : Mirrors table base mutations state)
    (hfield : table.fieldOf? base.typeName name = some field)
    (hleaves : mutation.Leaves table field ((base.get? name).getD .null) held shown) :
    Mirrors table base (Entries.put mutations name mutation) (state.write name held shown) := by
  have hframes := hmirrors.frames
  refine .intro ?_ ?_
  · constructor
    case conforms => exact hframes.conforms
    case distinct => exact Entries.nodup_put hframes.distinct name mutation
    case declared =>
      intro other hother
      rcases Entries.mem_names_put.mp hother with rfl | hother
      · rw [hfield]
        rfl
      · exact hframes.declared other hother
    case heldType => exact hframes.heldType
    case heldNames => exact Record.nodup_set hframes.heldNames name held
    case shownType => exact hframes.shownType
    case shownRevision => exact hframes.shownRevision
    case shownNames => exact Record.nodup_set hframes.shownNames name shown
    case shownPresent =>
      intro other
      rw [Execution.write, Record.get?_set]
      split
      · cases shown <;> simp [Value.isNull]
      · exact hframes.shownPresent other
    case held =>
      intro other hother
      rw [Entries.mem_names_put, not_or] at hother
      exact (Record.get?_set_of_ne _ held (Ne.symm hother.1)).trans (hframes.held other hother.2)
    case shown =>
      intro other hother
      rw [Entries.mem_names_put, not_or] at hother
      exact (Record.get?_set_of_ne _ shown (Ne.symm hother.1)).trans (hframes.shown other hother.2)
  · intro other change otherField hpending hother
    rw [Entries.find?_put] at hpending
    split at hpending
    · rename_i hname
      subst hname
      cases hpending
      cases hfield.symm.trans hother
      rw [Execution.write, Record.getD_get?_set_self, Record.getD_get?_set_self]
      exact hleaves
    · rename_i hname
      rw [Execution.write, Record.get?_set_of_ne _ held hname, Record.get?_set_of_ne _ shown hname]
      exact hmirrors.touched hpending hother

/-! ### Objects without changes -/

theorem names_of_conforms (hconforms : base.Conforms table) :
    (Entries.names base.fields).Nodup := by
  cases hconforms with
  | object names => exact names

/-- What the base of an object holds in a declared field. -/
theorem mayHold_of_conforms (hconforms : base.Conforms table)
    (hfield : table.fieldOf? base.typeName name = some field) :
    MayHold table field.type ((base.get? name).getD .null) := by
  cases hfind : base.get? name with
  | none => exact .inl rfl
  | some value =>
    cases hconforms with
    | object _ _ values =>
      exact .inr (values name value field (Entries.mem_of_find? hfind) hfield)

theorem Mirrors.start (hconforms : base.Conforms table) : Mirrors table base [] (start base) := by
  have hnames := names_of_conforms hconforms
  refine .intro ?_ fun _ _ _ hpending => nomatch hpending
  constructor
  case conforms => exact hconforms
  case distinct => exact List.nodup_nil
  case declared => exact fun _ hmem => nomatch hmem
  case heldNames | shownNames => exact hnames
  case heldType | shownType | shownRevision => rfl
  case held | shown => exact fun _ _ => rfl
  case shownPresent =>
    intro other hnull
    cases hconforms with
    | object _ known values =>
      have hmem := Entries.mem_of_find? hnull
      obtain ⟨declared, hdeclared⟩ :=
        Option.isSome_iff_exists.mp (known other (List.mem_map_of_mem hmem))
      exact absurd (values other .null declared hmem hdeclared).isNull (by simp [Value.isNull])

theorem empty_conforms (table : TableSchema) (typeName : String) :
    (Record.empty typeName).Conforms table := by
  refine .object List.nodup_nil ?_ ?_
  · intro name hmem
    cases hmem
  · intro name value field hmem
    cases hmem

/-- The object that a field of a conforming one holds. -/
theorem objectAt_conforms {typeName : String} (hconforms : base.Conforms table)
    (hfield : table.fieldOf? base.typeName name = some field)
    (htype : field.type = .scalar (.object typeName)) :
    (base.objectAt name typeName).Conforms table ∧
      (base.objectAt name typeName).typeName = typeName := by
  have hholds := mayHold_of_conforms hconforms hfield
  rw [htype] at hholds
  unfold Record.objectAt
  cases hfind : base.get? name with
  | none => exact ⟨empty_conforms table typeName, rfl⟩
  | some value =>
    rw [hfind] at hholds
    rcases hholds with hnull | hvalue
    · cases hnull
      exact ⟨empty_conforms table typeName, rfl⟩
    · cases hvalue with
      | object names known values => exact ⟨.object names known values, rfl⟩
      | number whole => rcases whole with hsame | hsame <;> cases hsame

/-! ### One more change -/

theorem fieldOf_ok (hmirrors : Mirrors table base mutations state)
    (hfield : table.fieldOf? base.typeName name = some field) :
    state.fieldOf table name = .ok field := by
  rw [← hmirrors.frames.heldType] at hfield
  obtain ⟨type, htype, hfield⟩ := Option.bind_eq_some_iff.mp hfield
  rw [Execution.fieldOf, TableSchema.requireType, htype, ok_bind, TypeSchema.requireField, hfield]

theorem within_cons {direct : Execution → Except Error Execution} {next : Execution}
    {typeName : String} {rest : List String} (hmirrors : Mirrors table base mutations state)
    (hfield : table.fieldOf? base.typeName name = some field)
    (htype : field.type = .scalar (.object typeName))
    (hdirect : (state.nested name typeName).within table direct rest = .ok next) :
    state.within table direct (name :: rest) =
      .ok (state.write name next.held.toValue next.shown.toValue) := by
  rw [Execution.within, fieldOf_ok hmirrors hfield, ok_bind, htype]
  change (Execution.within table direct (state.nested name typeName) rest >>= _) = _
  rw [hdirect]
  rfl

end Execution

namespace ObjectUpdate

open Execution (Mirrors)

variable {table : TableSchema} {update later : ObjectUpdate} {state : Execution} {name : String}

/-- A change made at once mirrors one that is pending. -/
def Mirrored (table : TableSchema) (update later : ObjectUpdate)
    (outcome : Except Error Execution) : Prop :=
  ∃ next, outcome = .ok next ∧ Mirrors table update.base later.mutations next ∧
    later.base = update.base

theorem Makes.mirrored {field : FieldSchema} {change : FieldMutation} {mutation : Mutation}
    {value : Value} (hmakes : Makes table name update later field change)
    (hmirrors : Mirrors table update.base update.mutations state)
    (henters : mutation ≠ .enter)
    (hperform : mutation.perform field ((state.held.get? name).getD .null) = .ok value)
    (hleaves : change.Leaves table field ((update.base.get? name).getD .null) value
      (field.settled value)) :
    Mirrored table update later (Execution.perform table name mutation state) := by
  obtain ⟨hfield, rfl⟩ := hmakes
  refine ⟨state.write name value (field.settled value), ?_, hmirrors.write hfield hleaves, rfl⟩
  have hstep : Execution.perform table name mutation state = (do
      let field ← state.fieldOf table name
      let value ← mutation.perform field ((state.held.get? name).getD .null)
      return state.write name value (field.settled value)) := by
    cases mutation <;> first | rfl | exact absurd rfl henters
  rw [hstep, Execution.fieldOf_ok hmirrors hfield, ok_bind, hperform]
  rfl

theorem set_mirrored {value : Value} (hmirrors : Mirrors table update.base update.mutations state)
    (hrun : (set table name value).run.run update = (.ok (), later)) :
    Mirrored table update later (Execution.perform table name (.set value) state) := by
  obtain ⟨field, hmakes⟩ := set_ok hrun
  refine hmakes.mirrored hmirrors (by simp) rfl ?_
  cases value with
  | null => exact .scalar .remove
  | _ => exact .scalar (.set _)

theorem increment_mirrored {amount : Number}
    (hmirrors : Mirrors table update.base update.mutations state)
    (hintegral : ∀ field ∈ table.fieldOf? update.base.typeName name,
      (Mutation.increment amount).IsIntegral field)
    (hrun : (increment table name amount).run.run update = (.ok (), later)) :
    Mirrored table update later (Execution.perform table name (.increment amount) state) := by
  obtain ⟨field, element, before, after, hmakes, htype, hpending, hafter⟩ := increment_ok hrun
  have hwhole : element.IsWhole := by
    have hfield := hintegral field hmakes.declared
    rw [Mutation.IsIntegral, htype] at hfield
    exact hfield element rfl
  have hstep : ∃ next, addAmount ((state.held.get? name).getD .null) amount element = .ok next ∧
      after.Leaves field.type ((update.base.get? name).getD .null) next := by
    rw [htype]
    rcases hpending with ⟨hnone, rfl⟩ | hsome
    · have hholds := Execution.mayHold_of_conforms hmirrors.frames.conforms hmakes.declared
      rw [htype] at hholds
      rw [(hmirrors.untouched hnone).1]
      exact ScalarDelta.increment_none (hholds.isNumber hwhole) hwhole hafter
    · have hleaves := (hmirrors.touched hsome hmakes.declared).of_scalar.1
      rw [htype] at hleaves
      exact hleaves.increment hwhole hafter
  obtain ⟨next, hadd, hleaves⟩ := hstep
  refine hmakes.mirrored hmirrors (by simp) ?_ (.scalar hleaves)
  rw [Mutation.perform, htype]
  exact hadd

theorem changeCollection_mirrored {kind : Kind} {empty : CollectionDelta}
    {change : CollectionDelta → ElementType → Except Error CollectionDelta} {mutation : Mutation}
    (hmirrors : Mirrors table update.base update.mutations state)
    (hempty : CollectionDelta.none? kind = some empty) (henters : mutation ≠ .enter)
    (hfollows : ∀ field element, table.fieldOf? update.base.typeName name = some field →
      field.type = ⟨kind, some element⟩ →
      CollectionDelta.Follows field mutation element empty change)
    (hrun : (changeCollection table name kind empty change).run.run update = (.ok (), later)) :
    Mirrored table update later (Execution.perform table name mutation state) := by
  obtain ⟨field, element, htype, hmade⟩ := changeCollection_ok hrun
  rcases hmade with ⟨before, after, hmakes, hpending, hafter⟩ |
    ⟨whole, delta, value, hmakes, hpending, hdelta, hmerge⟩
  · have hchange := hfollows field element hmakes.declared htype
    have hbefore : before.Leaves field.type ((update.base.get? name).getD .null)
        ((state.held.get? name).getD .null) := by
      rcases hpending with ⟨hnone, rfl⟩ | hsome
      · have hholds := Execution.mayHold_of_conforms hmirrors.frames.conforms hmakes.declared
        rw [htype] at hholds ⊢
        rw [(hmirrors.untouched hnone).1]
        exact CollectionDelta.leaves_none hholds hempty
      · exact (hmirrors.touched hsome hmakes.declared).of_collection.1
    obtain ⟨value, hperform, hpresent, hleaves⟩ := hchange.pending hbefore hafter
    exact hmakes.mirrored hmirrors henters hperform (.collection hleaves hpresent)
  · have hchange := hfollows field element hmakes.declared htype
    have hleaves := (hmirrors.touched hpending hmakes.declared).of_scalar.1
    -- Only scalars are added to, so that the field was removed or replaced.
    have hheld : whole.set.getD .null = (state.held.get? name).getD .null := by
      generalize (state.held.get? name).getD .null = held at hleaves
      cases hleaves with
      | remove => rfl
      | set => rfl
      | amount declared =>
        cases htype.symm.trans declared
        cases hempty
    rw [hheld] at hmerge
    exact hmakes.mirrored hmirrors henters (hchange.whole hdelta hmerge) (.scalar (.set value))

theorem clear_mirrored (hmirrors : Mirrors table update.base update.mutations state)
    (hrun : (clear table name).run.run update = (.ok (), later)) :
    Mirrored table update later (Execution.perform table name .clear state) := by
  obtain ⟨field, delta, hmakes, hnone⟩ := clear_ok hrun
  obtain ⟨empty, hvalue, hpresent, hleaves⟩ :=
    CollectionDelta.leaves_clearing ((update.base.get? name).getD .null) hnone
  refine hmakes.mirrored hmirrors (by simp) ?_ (.collection hleaves hpresent)
  rw [Mutation.perform, hvalue]

/-! ### Nested objects -/

/-- Entering an object finds what was made of it. -/
theorem enter_mirrored {nested between : ObjectUpdate}
    (hmirrors : Mirrors table update.base update.mutations state)
    (hrun : (enter table name).run.run update = (.ok nested, between)) :
    ∃ field typeName, table.fieldOf? update.base.typeName name = some field ∧
      field.type = .scalar (.object typeName) ∧ nested.base.typeName = typeName ∧
      Mirrors table nested.base nested.mutations (state.nested name typeName) ∧
      between = update.withMutation name (.object nested.base nested.mutations) := by
  obtain ⟨field, typeName, hfield, htype, hbetween, hfound⟩ := enter_ok hrun
  refine ⟨field, typeName, hfield, htype, ?_⟩
  rcases hfound with ⟨hnone, hbase, hmutations⟩ | hsome
  · obtain ⟨hconforms, hname⟩ :=
      Execution.objectAt_conforms hmirrors.frames.conforms hfield htype
    have hnested : nested.base = update.base.objectAt name typeName := hbase
    have hstate : state.nested name typeName = .start nested.base := by
      obtain ⟨hheld, hshown⟩ := hmirrors.untouched hnone
      simp only [Execution.nested, Record.objectAt, hheld, hshown, hnested, Execution.start]
    refine ⟨hnested ▸ hname, ?_, hbetween⟩
    rw [hmutations, hstate]
    exact .start (hnested ▸ hconforms)
  · obtain ⟨inner, hheld, hshown, hdeclared, hinner⟩ := (hmirrors.touched hsome hfield).of_object
    have hname : nested.base.typeName = typeName := by
      have hsame := htype.symm.trans hdeclared
      injection hsame with _ helement
      injection helement with helement
      injection helement with helement
      exact helement.symm
    have hobject : ∀ {record object : Record},
        (record.get? name).getD .null = object.toValue → record.objectAt name typeName = object := by
      intro record object hvalue
      unfold Record.objectAt
      cases hget : record.get? name with
      | none =>
        rw [hget] at hvalue
        cases hvalue
      | some value =>
        rw [hget] at hvalue
        change value = object.toValue at hvalue
        rw [hvalue]
        rfl
    refine ⟨hname, ?_, hbetween⟩
    rw [Execution.nested, hobject hheld, hobject hshown]
    exact hinner

/-- Changes below an object are made of the object that its field holds. -/
theorem within_mirrored {change : Updating Unit} {direct : Execution → Except Error Execution}
    {relevant : FieldSchema → Prop} {target : String}
    (hchange : ∀ {update later : ObjectUpdate} {state : Execution},
      Mirrors table update.base update.mutations state →
      (∀ field ∈ table.fieldOf? update.base.typeName target, relevant field) →
      change.run.run update = (.ok (), later) → Mirrored table update later (direct state))
    {path : List String} (hmirrors : Mirrors table update.base update.mutations state)
    (hrelevant : ∀ field ∈ table.fieldAt? update.base.typeName path target, relevant field)
    (hrun : (within table path change).run.run update = (.ok (), later)) :
    Mirrored table update later (state.within table direct path) := by
  induction path generalizing update later state with
  | nil => exact hchange hmirrors hrelevant hrun
  | cons name rest ih =>
    obtain ⟨nested, between, nestedLater, henter, hwithin, rfl⟩ := within_ok hrun
    obtain ⟨field, typeName, hfield, htype, hname, hnested, rfl⟩ :=
      enter_mirrored hmirrors henter
    have hbelow : ∀ field ∈ table.fieldAt? nested.base.typeName rest target, relevant field := by
      intro found hfound
      refine hrelevant found ?_
      rw [TableSchema.fieldAt?, hfield, Option.bind_some, htype, ← hname]
      exact hfound
    obtain ⟨next, hdirect, hnext, hbase⟩ := ih hnested hbelow hwithin
    refine ⟨_, Execution.within_cons hmirrors hfield htype hdirect, ?_, rfl⟩
    rw [withMutation, withMutation, Entries.put_put]
    refine hmirrors.write hfield (.object ?_ ?_)
    · rw [hbase, hname, htype]
    · rw [hbase]
      exact hnext

end ObjectUpdate

open ObjectUpdate (Mirrored)

open Execution (Mirrors)

variable {table : TableSchema} {update later : ObjectUpdate} {state : Execution}

theorem Mutation.make_mirrored {name : String} {mutation : Mutation}
    (hmirrors : Mirrors table update.base update.mutations state)
    (hintegral : ∀ field ∈ table.fieldOf? update.base.typeName name, mutation.IsIntegral field)
    (hrun : (mutation.make table name).run.run update = (.ok (), later)) :
    Mirrored table update later (Execution.perform table name mutation state) := by
  have hwhole : ∀ {field : FieldSchema} {kind : Kind} {element : ElementType} {key : String}
      {amount : Number}, field.type = ⟨kind, some element⟩ →
      (Mutation.incrementEntry key amount).IsIntegral field → element.IsWhole := by
    intro field kind element key amount htype hfield
    rw [Mutation.IsIntegral, htype] at hfield
    exact hfield element rfl
  cases mutation with
  | set value => exact ObjectUpdate.set_mirrored hmirrors hrun
  | remove => exact ObjectUpdate.set_mirrored hmirrors hrun
  | increment amount => exact ObjectUpdate.increment_mirrored hmirrors hintegral hrun
  | putEntry key value =>
    exact ObjectUpdate.changeCollection_mirrored hmirrors rfl (by simp)
      (fun _ _ _ htype => CollectionDelta.follows_putEntry htype key value) hrun
  | incrementEntry key amount =>
    exact ObjectUpdate.changeCollection_mirrored hmirrors rfl (by simp)
      (fun field _ hfield htype => CollectionDelta.follows_incrementEntry htype
        (hwhole htype (hintegral field hfield)) key amount) hrun
  | deleteEntry key =>
    exact ObjectUpdate.changeCollection_mirrored hmirrors rfl (by simp)
      (fun _ _ _ htype => CollectionDelta.follows_deleteEntry htype key) hrun
  | addElement value =>
    exact ObjectUpdate.changeCollection_mirrored hmirrors rfl (by simp)
      (fun field _ hfield htype => CollectionDelta.follows_addElement htype
        (hintegral field hfield)) hrun
  | deleteElement value =>
    exact ObjectUpdate.changeCollection_mirrored hmirrors rfl (by simp)
      (fun field _ hfield htype => CollectionDelta.follows_deleteElement htype
        (hintegral field hfield)) hrun
  | append values =>
    exact ObjectUpdate.changeCollection_mirrored hmirrors rfl (by simp)
      (fun _ _ _ htype => CollectionDelta.follows_append htype values) hrun
  | clear => exact ObjectUpdate.clear_mirrored hmirrors hrun
  | enter =>
    obtain ⟨nested, between, henter, hdone⟩ := run_bind_ok hrun
    obtain ⟨-, rfl⟩ := run_pure_ok hdone
    obtain ⟨field, typeName, hfield, htype, hname, hnested, rfl⟩ :=
      ObjectUpdate.enter_mirrored hmirrors henter
    refine ⟨_, Execution.within_cons hmirrors hfield htype rfl, ?_, rfl⟩
    exact hmirrors.write hfield (.object (by rw [hname, htype]) hnested)

theorem FieldChange.make_mirrored {change : FieldChange}
    (hmirrors : Mirrors table update.base update.mutations state)
    (hintegral : change.IsIntegral table update.base.typeName)
    (hrun : (change.make table).run.run update = (.ok (), later)) :
    Mirrored table update later (change.perform table state) := by
  refine ObjectUpdate.within_mirrored ?_ hmirrors hintegral hrun
  intro update later state hmirrors hintegral hrun
  exact Mutation.make_mirrored hmirrors hintegral hrun

/-- Changes made one after another mirror those that are pending. -/
theorem FieldChange.makeAll_mirrored {changes : List FieldChange}
    (hmirrors : Mirrors table update.base update.mutations state)
    (hintegral : ∀ change ∈ changes, change.IsIntegral table update.base.typeName)
    (hrun : (changes.forM (FieldChange.make table)).run.run update = (.ok (), later)) :
    Mirrored table update later (changes.foldlM (fun state change => change.perform table state)
      state) := by
  induction changes generalizing update state with
  | nil =>
    cases hrun
    exact ⟨state, rfl, hmirrors, rfl⟩
  | cons change rest ih =>
    obtain ⟨hchange, hrest⟩ := List.forall_mem_cons.mp hintegral
    obtain ⟨⟨⟩, between, hfirst, hothers⟩ := run_bind_ok hrun
    obtain ⟨next, hperform, hnext, hbase⟩ := FieldChange.make_mirrored hmirrors hchange hfirst
    rw [← hbase] at hnext hrest
    obtain ⟨last, hlast, hmirrored, hlastBase⟩ := ih hnext hrest hothers
    refine ⟨last, ?_, hbase ▸ hmirrored, hlastBase.trans hbase⟩
    rw [List.foldlM_cons, hperform]
    exact hlast

end RecordStore
