import RecordStore.Proofs.Update.Merged

/-!
# Changes of which nothing is lost

A change lasts when the values that it passes survive being stored in its field, and so does what it
keeps of the field. All that is pending after changes that last does so too, in whatever order they
were made.
-/

namespace RecordStore

variable {table : TableSchema} {field : FieldSchema} {shown : Option Value}

/-! ### Fields and what is pending for them -/

/-- A field that is stored under its own type, and of which numbers are whole. If it has a default, it
is written whole, since what is written relative to an absent attribute knows nothing of the default.
-/
structure FieldSchema.Lasting (field : FieldSchema) : Prop where
  persist : field.persist = true
  inPlace : field.rekeyById = false
  default : field.default = none ∨
    field.writesRelative = false ∧ ∀ typeName, field.type ≠ .scalar (.object typeName)
  integral : field.type.isIntegral = true

theorem FieldSchema.Lasting.isWhole {element : ElementType} (hfield : field.Lasting)
    (helement : field.type.element = some element) (hnumeric : element.isNumeric = true) :
    element.IsWhole := by
  have hintegral := hfield.integral
  rw [ValueType.isIntegral, helement] at hintegral
  exact ElementType.isWhole_of_isIntegral hnumeric hintegral

/-- A value survives being stored in the field. -/
def FieldSchema.Preserves (table : TableSchema) (field : FieldSchema) (value : Value) : Prop :=
  Survives table field.compress field.type value

/-- What a record shows in a field survives being stored there, or it stays where it is stored: a map
or a list is written relative to it. -/
def FieldSchema.HoldsLasting (table : TableSchema) (field : FieldSchema) (shown : Option Value) :
    Prop :=
  ∃ value, shown = some value ∧
    (field.Preserves table value ∨ field.writesRelative = true ∧ field.type.kind ≠ .set)

/-- A pending replacement survives, and a pending amount is that of a whole number. -/
inductive ScalarDelta.Lasts (table : TableSchema) (field : FieldSchema) : ScalarDelta → Prop where
  | remove : Lasts table field .ofRemove
  | set {value : Value} (present : value.isNull = false) (preserved : field.Preserves table value) :
    Lasts table field (.ofSet value)
  | amount {element : ElementType} {amount : Number} (declared : field.type = .scalar element)
    (whole : element.IsWhole) : Lasts table field (.ofAmount amount)

/-- A pending delta is of the kind of its field, and what it puts there survives. -/
structure CollectionDelta.LastsIn (table : TableSchema) (field : FieldSchema)
    (delta : CollectionDelta) : Prop where
  kind : field.type.kind = delta.kind
  distinct : delta.Distinct
  lasts : ∀ element, field.type.element = some element → delta.Lasts table field.compress element

mutual

/-- What is pending for a field survives, at every depth of objects, and so does what is kept of what
the base shows there. -/
def FieldMutation.Lasts (table : TableSchema) (field : FieldSchema) (shown : Option Value) :
    FieldMutation → Prop
  | .scalar delta => delta.Lasts table field
  | .collection delta => delta.LastsIn table field ∧
      (delta.clears = true ∨ field.HoldsLasting table shown)
  | .object nested mutations => shown = some nested.toValue ∧ AllLast table nested mutations

def FieldMutation.AllLast (table : TableSchema) (base : Record) :
    List (String × FieldMutation) → Prop
  | [] => True
  | (name, mutation) :: rest => (∀ field, table.fieldOf? base.typeName name = some field →
      field.Lasting ∧ mutation.Lasts table field (base.get? name)) ∧ AllLast table base rest

end

theorem FieldMutation.allLast_iff {base : Record} {mutations : List (String × FieldMutation)} :
    AllLast table base mutations ↔ ∀ entry ∈ mutations, ∀ field,
      table.fieldOf? base.typeName entry.1 = some field →
        field.Lasting ∧ entry.2.Lasts table field (base.get? entry.1) := by
  induction mutations with
  | nil => simp [AllLast]
  | cons entry rest ih => rw [AllLast, ih, List.forall_mem_cons]

/-! ### Changes that last -/

/-- What a change passes survives in the field, and so does what it keeps of what the base shows. -/
def Mutation.Lasts (table : TableSchema) (field : FieldSchema) (shown : Option Value) :
    Mutation → Prop
  | .set value => value.isNull = true ∨ field.Preserves table value
  | .remove | .increment _ | .clear => True
  | .putEntry _ value => field.HoldsLasting table shown ∧
      ∀ element, field.type.element = some element →
        Survives table field.compress (.scalar element) value
  | .incrementEntry _ _ | .deleteEntry _ => field.HoldsLasting table shown
  | .addElement value | .deleteElement value => field.HoldsLasting table shown ∧
      ∀ element, field.type.element = some element →
        Survives table field.compress ⟨.set, some element⟩ (.set [value])
  | .append values => field.HoldsLasting table shown ∧
      ∀ element, field.type.element = some element →
        ∀ value ∈ values, Survives table field.compress (.scalar element) value
  | .enter => ∃ nested, shown = some (Record.toValue nested)

/-- The change lasts in a field of the object that a path leads to from the base, through objects that
the base holds. -/
def Mutation.LastsAt (table : TableSchema) (name : String) (mutation : Mutation) :
    (path : List String) → (base : Record) → Prop
  | [], base => ∀ field, table.fieldOf? base.typeName name = some field →
      field.Lasting ∧ mutation.Lasts table field (base.get? name)
  | step :: rest, base =>
    (∀ field, table.fieldOf? base.typeName step = some field → field.Lasting) ∧
      ∃ nested, base.get? step = some (Record.toValue nested) ∧
        LastsAt table name mutation rest nested

def FieldChange.Lasts (table : TableSchema) (base : Record) (change : FieldChange) : Prop :=
  change.mutation.LastsAt table change.field change.path base

/-! ### Deltas after one more change -/

theorem ScalarDelta.Lasts.increment {delta later : ScalarDelta} {element : ElementType}
    {amount : Number} (haccepted : table.Accepted) (htype : field.type = .scalar element)
    (hwhole : element.IsWhole) (hdelta : delta = .none ∨ delta.Lasts table field)
    (hstep : delta.increment amount element = .ok later) : later.Lasts table field := by
  rcases hdelta with rfl | hdelta
  · cases hstep
    exact .amount htype hwhole
  · cases hdelta with
    | remove =>
      cases hstep
      refine .set rfl ?_
      rw [FieldSchema.Preserves, htype]
      exact .number haccepted hwhole (Number.isWithin_add hwhole _ _)
    | set hpresent hvalue =>
      obtain ⟨next, hadd, hlater⟩ := bind_eq_ok_iff.mp hstep
      cases hlater
      obtain ⟨number, rfl⟩ := exists_of_addAmount hadd
      refine .set rfl ?_
      rw [FieldSchema.Preserves, htype]
      exact .addAmount haccepted hwhole hadd
    | amount =>
      cases hstep
      exact .amount htype hwhole

section Deltas

variable {compressed : Bool} {element : ElementType} {value : Value}

namespace MapDelta

variable {delta later : MapDelta} {key : String}

theorem Lasts.putEntry (hdelta : (CollectionDelta.map delta).Lasts table compressed element)
    (hvalue : Survives table compressed (.scalar element) value) :
    (CollectionDelta.map (delta.putEntry key value)).Lasts table compressed element := by
  refine ⟨fun name held hmem => ?_, fun hamounts => hdelta.2 fun hnone => hamounts ?_⟩
  · rcases Entries.mem_put hmem with hsame | hmem
    · cases hsame
      exact hvalue
    · exact hdelta.1 name held hmem
  · rw [MapDelta.putEntry, hnone]
    rfl

theorem Lasts.incrementEntry {amount : Number} (haccepted : table.Accepted)
    (hwhole : element.IsWhole)
    (hdelta : (CollectionDelta.map delta).Lasts table compressed element)
    (hstep : delta.incrementEntry key amount element = .ok later) :
    (CollectionDelta.map later).Lasts table compressed element := by
  have hput : ∀ value, Survives table compressed (.scalar element) value → ∀ name held,
      (name, held) ∈ Entries.put delta.updates key value →
      Survives table compressed (.scalar element) held := by
    intro value hvalue name held hmem
    rcases Entries.mem_put hmem with hsame | hmem
    · cases hsame
      exact hvalue
    · exact hdelta.1 name held hmem
  unfold MapDelta.incrementEntry at hstep
  split at hstep
  · cases hstep
    exact ⟨hput _ (.number haccepted hwhole (Number.isWithin_add hwhole _ _)), fun _ => hwhole⟩
  · split at hstep
    · obtain ⟨sum, hadd, hlater⟩ := bind_eq_ok_iff.mp hstep
      cases hlater
      exact ⟨hput _ (.addAmount haccepted hwhole hadd), fun _ => hwhole⟩
    · cases hstep
      exact ⟨hdelta.1, fun _ => hwhole⟩
    · cases hstep
      exact ⟨hdelta.1, fun _ => hwhole⟩

theorem Lasts.deleteEntry (hdelta : (CollectionDelta.map delta).Lasts table compressed element) :
    (CollectionDelta.map (delta.deleteEntry key)).Lasts table compressed element := by
  refine ⟨fun name held hmem => hdelta.1 name held ?_, fun hamounts => hdelta.2 fun hnone =>
    hamounts ?_⟩
  · rw [MapDelta.deleteEntry, Entries.erase_eq_filter] at hmem
    exact (List.mem_filter.mp hmem).1
  · rw [MapDelta.deleteEntry, hnone]
    rfl

end MapDelta

namespace SetDelta

variable {delta : SetDelta}

theorem Lasts.addElement (hdelta : (CollectionDelta.set delta).Lasts table compressed element)
    (hvalue : Survives table compressed ⟨.set, some element⟩ (.set [value])) :
    (CollectionDelta.set (delta.addElement value)).Lasts table compressed element := by
  obtain ⟨hadds, hdeletes, haddsDistinct, hdeletesDistinct⟩ := hdelta
  refine ⟨fun held hmem => ?_, fun held hmem => hdeletes held (List.mem_filter.mp hmem).1,
    distinct_adjoin haddsDistinct, hdeletesDistinct.filter _⟩
  rcases mem_adjoin hmem with hmem | rfl
  · exact hadds held hmem
  · exact hvalue

theorem Lasts.deleteElement (hdelta : (CollectionDelta.set delta).Lasts table compressed element)
    (hvalue : Survives table compressed ⟨.set, some element⟩ (.set [value])) :
    (CollectionDelta.set (delta.deleteElement value)).Lasts table compressed element := by
  obtain ⟨hadds, hdeletes, haddsDistinct, hdeletesDistinct⟩ := hdelta
  refine ⟨fun held hmem => hadds held (List.mem_filter.mp hmem).1, fun held hmem => ?_,
    haddsDistinct.filter _, distinct_adjoin hdeletesDistinct⟩
  rcases mem_adjoin hmem with hmem | rfl
  · exact hdeletes held hmem
  · exact hvalue

end SetDelta

end Deltas

/-- A delta without changes lasts. -/
theorem CollectionDelta.lastsIn_none? {delta : CollectionDelta}
    (hnone : none? field.type.kind = some delta) : delta.LastsIn table field := by
  refine ⟨?_, distinct_none? hnone, fun element _ => ?_⟩
  · generalize field.type.kind = kind at hnone ⊢
    cases kind <;> cases hnone <;> rfl
  · generalize field.type.kind = kind at hnone
    cases kind <;> cases hnone
    · exact ⟨fun _ _ => (nomatch ·), fun hamounts => absurd rfl hamounts⟩
    · exact List.forall_mem_nil _
    · exact ⟨List.forall_mem_nil _, List.forall_mem_nil _, .nil, .nil⟩

theorem CollectionDelta.LastsIn.clearing {delta : CollectionDelta}
    (hdelta : delta.LastsIn table field) : delta.clearing.LastsIn table field := by
  refine ⟨?_, hdelta.distinct.clearing, fun element helement => ?_⟩
  · rw [hdelta.kind]
    cases delta <;> rfl
  · have hlasts := hdelta.lasts element helement
    cases delta <;> exact hlasts

theorem CollectionDelta.isNull_of_merge {delta : CollectionDelta} {base value : Value}
    {element : ElementType} (hmerge : delta.merge base element = .ok value) :
    value.isNull = false := by
  cases delta with
  | map delta =>
    obtain ⟨_, _, hmerge⟩ := bind_eq_ok_iff.mp hmerge
    obtain ⟨_, _, hdone⟩ := bind_eq_ok_iff.mp hmerge
    cases hdone
    rfl
  | set delta =>
    obtain ⟨_, _, rfl⟩ := map_eq_ok_iff.mp hmerge
    rfl
  | list delta =>
    unfold merge ListDelta.merge at hmerge
    dsimp only at hmerge
    split at hmerge
    · cases hmerge
      rfl
    · split at hmerge <;> cases hmerge <;> rfl

theorem TableSchema.Accepted.storable_of_fieldOf? (haccepted : table.Accepted)
    {typeName name : String} (hfield : table.fieldOf? typeName name = some field) :
    field.Storable := by
  obtain ⟨type, htype, hfield⟩ := Option.bind_eq_some_iff.mp hfield
  exact (haccepted.fields type (List.mem_of_find?_eq_some htype)).storable field
    (List.mem_of_find?_eq_some hfield)

/-! ### One more change -/

namespace ObjectUpdate

variable {name : String} {update later : ObjectUpdate}

def Lasts (table : TableSchema) (update : ObjectUpdate) : Prop :=
  FieldMutation.AllLast table update.base update.mutations

/-- Something else is pending for a declared field, and it lasts if the field does. -/
def Lasted (table : TableSchema) (name : String) (update later : ObjectUpdate)
    (mutation : FieldMutation) : Prop :=
  ∃ field, Makes table name update later field mutation ∧ field.Lasting ∧
    mutation.Lasts table field (update.base.get? name)

theorem Lasts.of_lasted {mutation : FieldMutation} (hupdate : update.Lasts table)
    (hlasted : Lasted table name update later mutation) :
    later.base = update.base ∧ later.Lasts table := by
  obtain ⟨field, ⟨hfield, rfl⟩, hlasting, hlasts⟩ := hlasted
  refine ⟨rfl, FieldMutation.allLast_iff.mpr fun entry hmem other hother => ?_⟩
  rcases Entries.mem_put hmem with rfl | hmem
  · cases hfield.symm.trans hother
    exact ⟨hlasting, hlasts⟩
  · exact FieldMutation.allLast_iff.mp hupdate entry hmem other hother

theorem Lasts.of_mutation? {mutation : FieldMutation} (hupdate : update.Lasts table)
    (hpending : update.mutation? name = some mutation)
    (hfield : table.fieldOf? update.base.typeName name = some field) :
    mutation.Lasts table field (update.base.get? name) :=
  (FieldMutation.allLast_iff.mp hupdate _ (Entries.mem_of_find? hpending) field hfield).2

/-- Only numbers are added to. -/
theorem isNumeric_of_increment {amount : Number} {element : ElementType}
    (hrun : (increment table name amount).run.run update = (.ok (), later))
    (hfield : table.fieldOf? update.base.typeName name = some field)
    (helement : field.type.element = some element) : element.isNumeric = true := by
  obtain ⟨found, hfound, rfl, hincrement⟩ := fieldOf_ok hrun
  cases hfield.symm.trans hfound
  obtain ⟨other, hother, hincrement⟩ := run_except_bind_ok hincrement
  cases helement.symm.trans (ValueType.requireElement_eq_ok_iff.mp hother)
  split at hincrement
  · cases hincrement
  · rename_i hkind
    simp only [ne_eq, Bool.or_eq_true, not_or, Bool.not_eq_true, Bool.not_eq_false'] at hkind
    exact hkind.2

section Steps

variable {value : Value}

theorem set_lasted
    (hlasts : ∀ field, table.fieldOf? update.base.typeName name = some field →
      field.Lasting ∧ (value.isNull = true ∨ field.Preserves table value))
    (hrun : (set table name value).run.run update = (.ok (), later)) :
    ∃ mutation, Lasted table name update later mutation := by
  obtain ⟨field, hmakes⟩ := set_ok hrun
  obtain ⟨hfield, hvalue⟩ := hlasts field hmakes.declared
  refine ⟨_, field, hmakes, hfield, ?_⟩
  split
  · exact .remove
  · rename_i hpresent
    rw [Bool.not_eq_true] at hpresent
    exact .set hpresent (hvalue.resolve_left (by simp [hpresent]))

theorem increment_lasted {amount : Number} (haccepted : table.Accepted)
    (hupdate : update.Lasts table)
    (hlasts : ∀ field, table.fieldOf? update.base.typeName name = some field → field.Lasting)
    (hrun : (increment table name amount).run.run update = (.ok (), later)) :
    ∃ mutation, Lasted table name update later mutation := by
  obtain ⟨field, element, before, after, hmakes, htype, hpending, hafter⟩ := increment_ok hrun
  have hfield := hlasts field hmakes.declared
  have helement : field.type.element = some element := by rw [htype]; rfl
  have hwhole := hfield.isWhole helement (isNumeric_of_increment hrun hmakes.declared helement)
  refine ⟨_, field, hmakes, hfield, ?_⟩
  refine ScalarDelta.Lasts.increment haccepted htype hwhole ?_ hafter
  rcases hpending with ⟨_, rfl⟩ | hpending
  · exact .inl rfl
  · exact .inr (hupdate.of_mutation? hpending hmakes.declared)

theorem changeCollection_lasted {kind : Kind} {empty : CollectionDelta}
    {change : CollectionDelta → ElementType → Except Error CollectionDelta}
    (haccepted : table.Accepted) (hupdate : update.Lasts table)
    (hlasts : ∀ field, table.fieldOf? update.base.typeName name = some field →
      field.Lasting ∧ field.HoldsLasting table (update.base.get? name))
    (hempty : ∀ field : FieldSchema, field.type.kind = kind → empty.LastsIn table field)
    (hchange : ∀ field delta element after,
      table.fieldOf? update.base.typeName name = some field → field.type = ⟨kind, some element⟩ →
      CollectionDelta.LastsIn table field delta → change delta element = .ok after →
      after.LastsIn table field)
    (hrun : (changeCollection table name kind empty change).run.run update = (.ok (), later)) :
    ∃ mutation, Lasted table name update later mutation := by
  obtain ⟨field, element, htype, ⟨before, after, hmakes, hpending, hafter⟩ |
    ⟨whole, delta, value, hmakes, hpending, hdelta, hvalue⟩⟩ := changeCollection_ok hrun
  · obtain ⟨hfield, hheld⟩ := hlasts field hmakes.declared
    have hbefore : before.LastsIn table field := by
      rcases hpending with ⟨_, rfl⟩ | hpending
      · exact hempty field (by rw [htype])
      · exact (hupdate.of_mutation? hpending hmakes.declared).1
    exact ⟨.collection after, field, hmakes, hfield,
      hchange field before element after hmakes.declared htype hbefore hafter, .inr hheld⟩
  · obtain ⟨hfield, _⟩ := hlasts field hmakes.declared
    have hlasting := hchange field empty element delta hmakes.declared htype
      (hempty field (by rw [htype])) hdelta
    have hkind : kind = delta.kind := by
      rw [← hlasting.kind, htype]
    subst hkind
    have helement : field.type.element = some element := by
      rw [htype]
    have hintegral : element.isIntegral = true := by
      have hintegral := hfield.integral
      rwa [ValueType.isIntegral, helement] at hintegral
    have hrests : delta.RestsOn table field.compress ⟨delta.kind, some element⟩
        (whole.set.getD .null) := by
      have hwhole : whole.Lasts table field := hupdate.of_mutation? hpending hmakes.declared
      cases hwhole with
      | remove | amount => exact fun hkeeps => nomatch hkeeps.2
      | set _ hpreserved =>
        rw [FieldSchema.Preserves, htype] at hpreserved
        exact fun _ => hpreserved
    refine ⟨_, field, hmakes, hfield, .set (CollectionDelta.isNull_of_merge hvalue) ?_⟩
    rw [FieldSchema.Preserves, htype]
    refine CollectionDelta.survives_merge haccepted (fun hset => ?_) hintegral hlasting.distinct
      (hlasting.lasts element helement) hrests hvalue
    exact (haccepted.storable_of_fieldOf? hmakes.declared).set (by rw [htype, hset]) element helement

theorem changeMap_lasted {change : MapDelta → ElementType → Except Error MapDelta}
    (haccepted : table.Accepted) (hupdate : update.Lasts table)
    (hlasts : ∀ field, table.fieldOf? update.base.typeName name = some field →
      field.Lasting ∧ field.HoldsLasting table (update.base.get? name))
    (hchange : ∀ field delta element after,
      table.fieldOf? update.base.typeName name = some field → field.type.element = some element →
      MapDelta.Distinct delta → (CollectionDelta.map delta).Lasts table field.compress element →
      change delta element = .ok after →
      after.Distinct ∧ (CollectionDelta.map after).Lasts table field.compress element)
    (hrun : (changeMap table name change).run.run update = (.ok (), later)) :
    ∃ mutation, Lasted table name update later mutation := by
  refine changeCollection_lasted haccepted hupdate hlasts (fun field hkind => ?_) ?_ hrun
  · exact CollectionDelta.lastsIn_none? (by rw [hkind]; rfl)
  intro field delta element after hfield htype hdelta hafter
  have helement : field.type.element = some element := by rw [htype]
  cases delta with
  | map delta =>
    obtain ⟨changed, hchanged, rfl⟩ := map_eq_ok_iff.mp hafter
    obtain ⟨hdistinct, hlasting⟩ := hchange field delta element changed hfield helement
      hdelta.distinct (hdelta.lasts element helement) hchanged
    refine ⟨hdelta.kind, hdistinct, fun other hother => ?_⟩
    cases helement.symm.trans hother
    exact hlasting
  | set delta | list delta =>
    cases hafter
    exact hdelta

theorem changeSet_lasted {change : SetDelta → SetDelta} (haccepted : table.Accepted)
    (hupdate : update.Lasts table)
    (hlasts : ∀ field, table.fieldOf? update.base.typeName name = some field →
      field.Lasting ∧ field.HoldsLasting table (update.base.get? name))
    (hchange : ∀ field delta element, table.fieldOf? update.base.typeName name = some field →
      field.type.element = some element →
      (CollectionDelta.set delta).Lasts table field.compress element →
      (CollectionDelta.set (change delta)).Lasts table field.compress element)
    (hrun : (changeSet table name change).run.run update = (.ok (), later)) :
    ∃ mutation, Lasted table name update later mutation := by
  refine changeCollection_lasted haccepted hupdate hlasts (fun field hkind => ?_) ?_ hrun
  · exact CollectionDelta.lastsIn_none? (by rw [hkind]; rfl)
  intro field delta element after hfield _ hdelta hafter
  cases delta with
  | set delta =>
    cases hafter
    exact ⟨hdelta.kind, trivial, fun element helement =>
      hchange field delta element hfield helement (hdelta.lasts element helement)⟩
  | map delta | list delta =>
    cases hafter
    exact hdelta

theorem append_lasted {values : List Value} (haccepted : table.Accepted)
    (hupdate : update.Lasts table)
    (hlasts : ∀ field, table.fieldOf? update.base.typeName name = some field →
      field.Lasting ∧ field.HoldsLasting table (update.base.get? name))
    (hvalues : ∀ field element, table.fieldOf? update.base.typeName name = some field →
      field.type.element = some element →
      ∀ value ∈ values, Survives table field.compress (.scalar element) value)
    (hrun : (append table name values).run.run update = (.ok (), later)) :
    ∃ mutation, Lasted table name update later mutation := by
  refine changeCollection_lasted haccepted hupdate hlasts (fun field hkind => ?_) ?_ hrun
  · exact CollectionDelta.lastsIn_none? (by rw [hkind]; rfl)
  intro field delta element after hfield _ hdelta hafter
  cases delta with
  | list delta =>
    cases hafter
    refine ⟨hdelta.kind, trivial, fun element helement value hmem => ?_⟩
    rcases List.mem_append.mp hmem with hmem | hmem
    · exact hdelta.lasts element helement value hmem
    · exact hvalues field element hfield helement value hmem
  | map delta | set delta =>
    cases hafter
    exact hdelta

theorem clear_lasted
    (hlasts : ∀ field, table.fieldOf? update.base.typeName name = some field → field.Lasting)
    (hrun : (clear table name).run.run update = (.ok (), later)) :
    ∃ mutation, Lasted table name update later mutation := by
  obtain ⟨field, delta, hmakes, hnone⟩ := clear_ok hrun
  refine ⟨.collection delta.clearing, field, hmakes, hlasts field hmakes.declared,
    (CollectionDelta.lastsIn_none? hnone).clearing, .inl ?_⟩
  cases delta <;> rfl

/-- An object that is entered is the one that the base holds. -/
theorem enter_lasted {nested : ObjectUpdate} {held : Record} (hupdate : update.Lasts table)
    (hlasts : ∀ field, table.fieldOf? update.base.typeName name = some field → field.Lasting)
    (hheld : update.base.get? name = some held.toValue)
    (hrun : (enter table name).run.run update = (.ok nested, later)) :
    nested.base = held ∧ nested.Lasts table ∧
      Lasted table name update later (.object nested.base nested.mutations) := by
  obtain ⟨field, typeName, hfield, _, hlater, hpending⟩ := enter_ok hrun
  have hnested : (FieldMutation.object nested.base nested.mutations).Lasts table field
      (update.base.get? name) := by
    rcases hpending with ⟨_, hbase, hnil⟩ | hpending
    · rw [nestedBase, hheld] at hbase
      rw [hnil, hbase]
      exact ⟨hheld, trivial⟩
    · exact hupdate.of_mutation? hpending hfield
  obtain ⟨hsame, hall⟩ := hnested
  refine ⟨?_, hall, field, ⟨hfield, hlater⟩, hlasts field hfield, hsame, hall⟩
  have hvalue := Option.some.inj (hsame.symm.trans hheld)
  obtain ⟨leftType, left, leftRevision⟩ := held
  obtain ⟨⟨rightType, right, rightRevision⟩, _, _⟩ := nested
  cases hvalue
  rfl

end Steps

theorem make_lasted {change : Mutation} (haccepted : table.Accepted)
    (hupdate : update.Lasts table)
    (hlasts : ∀ field, table.fieldOf? update.base.typeName name = some field →
      field.Lasting ∧ change.Lasts table field (update.base.get? name))
    (hrun : (change.make table name).run.run update = (.ok (), later)) :
    ∃ mutation, Lasted table name update later mutation := by
  cases change <;> rw [Mutation.make] at hrun
  case set value => exact set_lasted hlasts hrun
  case remove => exact set_lasted (fun field hfield => ⟨(hlasts field hfield).1, .inl rfl⟩) hrun
  case increment amount =>
    exact increment_lasted haccepted hupdate (fun field hfield => (hlasts field hfield).1) hrun
  case putEntry key value =>
    refine changeMap_lasted haccepted hupdate
      (fun field hfield => ⟨(hlasts field hfield).1, (hlasts field hfield).2.1⟩) ?_ hrun
    rintro field delta element after hfield helement hdistinct hdelta ⟨⟩
    exact ⟨hdistinct.putEntry key value,
      MapDelta.Lasts.putEntry hdelta ((hlasts field hfield).2.2 element helement)⟩
  case incrementEntry key amount =>
    refine changeMap_lasted haccepted hupdate hlasts ?_ hrun
    intro field delta element after hfield helement hdistinct hdelta hafter
    split at hafter
    · rename_i hnumeric
      have hwhole := (hlasts field hfield).1.isWhole helement hnumeric
      exact ⟨hdistinct.incrementEntry hafter,
        MapDelta.Lasts.incrementEntry haccepted hwhole hdelta hafter⟩
    · cases hafter
  case deleteEntry key =>
    refine changeMap_lasted haccepted hupdate hlasts ?_ hrun
    rintro field delta element after _ _ hdistinct hdelta ⟨⟩
    exact ⟨hdistinct.deleteEntry key, MapDelta.Lasts.deleteEntry hdelta⟩
  case addElement value =>
    refine changeSet_lasted haccepted hupdate
      (fun field hfield => ⟨(hlasts field hfield).1, (hlasts field hfield).2.1⟩) ?_ hrun
    intro field delta element hfield helement hdelta
    exact SetDelta.Lasts.addElement hdelta ((hlasts field hfield).2.2 element helement)
  case deleteElement value =>
    refine changeSet_lasted haccepted hupdate
      (fun field hfield => ⟨(hlasts field hfield).1, (hlasts field hfield).2.1⟩) ?_ hrun
    intro field delta element hfield helement hdelta
    exact SetDelta.Lasts.deleteElement hdelta ((hlasts field hfield).2.2 element helement)
  case append values =>
    refine append_lasted haccepted hupdate
      (fun field hfield => ⟨(hlasts field hfield).1, (hlasts field hfield).2.1⟩) ?_ hrun
    exact fun field element hfield helement => (hlasts field hfield).2.2 element helement
  case clear => exact clear_lasted (fun field hfield => (hlasts field hfield).1) hrun
  case enter =>
    obtain ⟨nested, between, henter, hdone⟩ := run_bind_ok hrun
    obtain ⟨_, rfl⟩ := run_pure_ok hdone
    obtain ⟨field, _, hfield, _⟩ := enter_ok henter
    obtain ⟨_, held, hheld⟩ := hlasts field hfield
    exact ⟨_, (enter_lasted hupdate (fun field hfield => (hlasts field hfield).1) hheld henter).2.2⟩

/-- A change below objects that the base holds leaves what lasts pending, as it does within them. -/
theorem within_lasted {change : Mutation} {path : List String} (haccepted : table.Accepted)
    (hupdate : update.Lasts table) (hlasts : change.LastsAt table name path update.base)
    (hrun : (within table path (change.make table name)).run.run update = (.ok (), later)) :
    ∃ mutation, Lasted table (path.headD name) update later mutation := by
  induction path generalizing update later with
  | nil => exact make_lasted haccepted hupdate hlasts hrun
  | cons step rest ih =>
    obtain ⟨hfields, held, hheld, hrest⟩ := hlasts
    obtain ⟨nested, between, nestedLater, henter, hwithin, rfl⟩ := within_ok hrun
    obtain ⟨rfl, hnested, field, hmakes, hfield, hlasting, _⟩ :=
      enter_lasted hupdate hfields hheld henter
    obtain ⟨mutation, hlasted⟩ := ih hnested hrest hwithin
    obtain ⟨hsame, hlater⟩ := hnested.of_lasted hlasted
    refine ⟨.object nestedLater.base nestedLater.mutations, field, ⟨hmakes.declared, ?_⟩, hfield,
      hsame ▸ hlasting, hlater⟩
    -- Entering the object has set its field already, and the change sets it again.
    rw [hmakes.later, withMutation, withMutation, Entries.put_put]
    rfl

end ObjectUpdate

/-! ### Runs of changes -/

namespace Update

variable {update later : Update} {changes : List FieldChange}

/-- After changes that last, all that is pending lasts. -/
theorem changeAll_lasts (haccepted : table.Accepted) (hupdate : update.object.Lasts table)
    (hlasts : ∀ change ∈ changes, change.Lasts table update.object.base)
    (hchanges : update.changeAll table changes = .ok later) : later.object.Lasts table := by
  induction changes generalizing update with
  | nil =>
    cases hchanges
    exact hupdate
  | cons change rest ih =>
    obtain ⟨hfirst, hrest⟩ := List.forall_mem_cons.mp hlasts
    rw [changeAll] at hchanges
    split at hchanges
    · rename_i between hchange
      unfold Update.change at hchange
      rcases hrun : (change.make table).run.run update.object with ⟨outcome, object⟩
      rw [hrun] at hchange
      cases hchange
      obtain ⟨mutation, hlasted⟩ := ObjectUpdate.within_lasted haccepted hupdate hfirst hrun
      obtain ⟨hsame, hobject⟩ := hupdate.of_lasted hlasted
      refine ih hobject (fun other hmem => ?_) hchanges
      rw [hsame]
      exact hrest other hmem
    · cases hchanges

end Update

end RecordStore
