import RecordStore.Proofs.Codec.Width
import RecordStore.Proofs.Update.Apart
import RecordStore.Proofs.Update.Failed

/-!
# Integers that views show

An amount wraps around in the width of its field as soon as it is added. A value that replaces
another one, and an entry or an element that is put, added or appended, stays as it was passed until
it is stored. So every integer that a view shows is within its width, or a change passed it.
-/

namespace RecordStore

variable {table : TableSchema} {passed : Number → Prop}

/-! ### Merges -/

section Merges

variable {element : Option ElementType}

namespace Value

theorem InWidth.put {entries : List (String × Value)} {name : String} {value : Value}
    (hentries : (map entries).InWidth table passed element)
    (hvalue : value.InWidth table passed element) :
    (map (Entries.put entries name value)).InWidth table passed element := by
  rw [inWidth_map_iff] at hentries ⊢
  intro entry hmem
  rcases Entries.mem_put hmem with rfl | hmem
  · exact hvalue
  · exact hentries entry hmem

theorem InWidth.putAll {entries updates : List (String × Value)}
    (hentries : (map entries).InWidth table passed element)
    (hupdates : (map updates).InWidth table passed element) :
    (map (updates.foldl (fun held entry => Entries.put held entry.1 entry.2)
      entries)).InWidth table passed element := by
  rw [inWidth_map_iff] at hupdates
  induction updates generalizing entries with
  | nil => exact hentries
  | cons entry rest ih =>
    exact ih (hentries.put (hupdates entry List.mem_cons_self))
      fun other hmem => hupdates other (.tail _ hmem)

theorem InWidth.filterEntries {entries : List (String × Value)}
    (hentries : (map entries).InWidth table passed element) (keep : String × Value → Bool) :
    (map (entries.filter keep)).InWidth table passed element := by
  rw [inWidth_map_iff] at hentries ⊢
  exact fun entry hmem => hentries entry (List.mem_of_mem_filter hmem)

theorem InWidth.find? {entries : List (String × Value)}
    (hentries : (map entries).InWidth table passed element) (name : String) :
    ((Entries.find? entries name).getD .null).InWidth table passed element := by
  cases hheld : Entries.find? entries name with
  | none => exact inWidth_null
  | some value => exact inWidth_map_iff.mp hentries _ (Entries.mem_of_find? hheld)

theorem InWidth.adjoin {elements : List Value} {value : Value}
    (helements : (Value.set elements).InWidth table passed element)
    (hvalue : value.InWidth table passed element) :
    (Value.set (SetDelta.adjoin elements value)).InWidth table passed element := by
  rw [inWidth_set_iff] at helements ⊢
  intro member hmem
  rcases SetDelta.mem_adjoin hmem with hmem | rfl
  · exact helements member hmem
  · exact hvalue

theorem InWidth.adjoinAll {elements adds : List Value}
    (helements : (Value.set elements).InWidth table passed element)
    (hadds : (Value.set adds).InWidth table passed element) :
    (Value.set (adds.foldl SetDelta.adjoin elements)).InWidth table passed element := by
  rw [inWidth_set_iff] at hadds
  induction adds generalizing elements with
  | nil => exact helements
  | cons added rest ih =>
    exact ih (helements.adjoin (hadds added List.mem_cons_self))
      fun other hmem => hadds other (.tail _ hmem)

theorem InWidth.filterElements {elements : List Value}
    (helements : (Value.set elements).InWidth table passed element) (keep : Value → Bool) :
    (Value.set (elements.filter keep)).InWidth table passed element := by
  rw [inWidth_set_iff] at helements ⊢
  exact fun member hmem => helements member (List.mem_of_mem_filter hmem)

theorem InWidth.append {items others : List Value}
    (hitems : (list items).InWidth table passed element)
    (hothers : (list others).InWidth table passed element) :
    (list (items ++ others)).InWidth table passed element := by
  rw [inWidth_list_iff] at hitems hothers ⊢
  intro item hmem
  rcases List.mem_append.mp hmem with hmem | hmem
  · exact hitems item hmem
  · exact hothers item hmem

end Value

end Merges

/-- What is pending for a collection as it was passed. -/
def CollectionDelta.asPassed : CollectionDelta → Value
  | .map delta => .map delta.updates
  | .set delta => .set delta.adds
  | .list delta => .list delta.appends

section Deltas

variable {element : ElementType} {base value : Value}

/-- A sum is within its width, whatever it is made of. -/
theorem inWidth_addAmount
    {amount : Number} (hadd : addAmount base amount element = .ok value) :
    value.InWidth table passed (some element) := by
  cases base with
  | null | number =>
    cases hadd
    refine Value.inWidth_number_iff.mpr fun hinteger => ?_
    cases hinteger
    exact .inl (Number.inWidth_add _ _)
  | _ => cases hadd

theorem ScalarDelta.inWidth_merge {delta : ScalarDelta}
    (hset : (delta.set.getD .null).InWidth table passed (some element))
    (hbase : base.InWidth table passed (some element))
    (hmerge : delta.merge base element = .ok value) :
    value.InWidth table passed (some element) := by
  unfold merge at hmerge
  split at hmerge
  · cases hmerge
    exact Value.inWidth_null
  · split at hmerge
    · rename_i hreplaced
      cases hmerge
      rw [hreplaced] at hset
      exact hset
    · exact inWidth_addAmount hmerge
    · cases hmerge
      exact hbase

theorem MapDelta.inWidth_addTo
    {updates entries later : List (String × Value)} {amount : String × Number}
    (hentries : (Value.map entries).InWidth table passed (some element))
    (hadd : addTo element updates entries amount = .ok later) :
    (Value.map later).InWidth table passed (some element) := by
  unfold addTo at hadd
  split at hadd
  · cases hadd
    exact hentries
  · obtain ⟨sum, hsum, rfl⟩ := map_eq_ok_iff.mp hadd
    exact hentries.put (inWidth_addAmount hsum)

theorem MapDelta.inWidth_merge {delta : MapDelta}
    (hupdates : (Value.map delta.updates).InWidth table passed (some element))
    (hbase : base.InWidth table passed (some element))
    (hmerge : delta.merge base element = .ok value) :
    value.InWidth table passed (some element) := by
  obtain ⟨entries, hentries, hmerge⟩ := bind_eq_ok_iff.mp hmerge
  obtain ⟨summed, hsummed, hmerge⟩ := bind_eq_ok_iff.mp hmerge
  cases hmerge
  have hheld : (Value.map entries).InWidth table passed (some element) := by
    unfold baseEntries at hentries
    split at hentries
    · cases hentries
      exact Value.inWidth_map_nil
    · split at hentries <;> cases hentries
      · exact Value.inWidth_map_nil
      · exact hbase
  refine .filterEntries ?_ _
  exact @foldlM_invariant _ _ _ _
    (fun _ entries => (Value.map entries).InWidth table passed (some element))
    (fun _ _ _ _ hentries hadd => inWidth_addTo hentries hadd) [] _ _ _
    (hheld.putAll hupdates) hsummed

theorem SetDelta.inWidth_merge {delta : SetDelta}
    (hadds : (Value.set delta.adds).InWidth table passed (some element))
    (hbase : base.InWidth table passed (some element)) (hmerge : delta.merge base = .ok value) :
    value.InWidth table passed (some element) := by
  obtain ⟨elements, helements, rfl⟩ := map_eq_ok_iff.mp hmerge
  refine .filterElements (.adjoinAll ?_ hadds) _
  unfold baseElements at helements
  split at helements
  · cases helements
    exact Value.inWidth_set_nil
  · split at helements <;> cases helements
    · exact Value.inWidth_set_nil
    · exact hbase
    · exact Value.inWidth_set_iff.mpr (Value.inWidth_list_iff.mp hbase)

theorem ListDelta.inWidth_merge {delta : ListDelta}
    (happends : (Value.list delta.appends).InWidth table passed (some element))
    (hbase : base.InWidth table passed (some element)) (hmerge : delta.merge base = .ok value) :
    value.InWidth table passed (some element) := by
  unfold merge at hmerge
  split at hmerge
  · cases hmerge
    exact happends
  · split at hmerge <;> cases hmerge
    · exact happends
    · exact hbase.append happends

theorem CollectionDelta.inWidth_merge {delta : CollectionDelta}
    (hpassed : delta.asPassed.InWidth table passed (some element))
    (hbase : base.InWidth table passed (some element))
    (hmerge : delta.merge base element = .ok value) :
    value.InWidth table passed (some element) := by
  cases delta with
  | map delta => exact MapDelta.inWidth_merge hpassed hbase hmerge
  | set delta => exact SetDelta.inWidth_merge hpassed hbase hmerge
  | list delta => exact ListDelta.inWidth_merge hpassed hbase hmerge

/-! ### Deltas after one more change -/

theorem ScalarDelta.inWidth_increment {delta later : ScalarDelta}
    {amount : Number} (hset : (delta.set.getD .null).InWidth table passed (some element))
    (hincrement : delta.increment amount element = .ok later) :
    (later.set.getD .null).InWidth table passed (some element) := by
  unfold increment at hincrement
  split at hincrement
  · cases hincrement
    exact inWidth_addAmount (rfl : addAmount .null amount element = _)
  · split at hincrement
    · obtain ⟨sum, hsum, hlater⟩ := bind_eq_ok_iff.mp hincrement
      cases hlater
      exact inWidth_addAmount hsum
    · cases hincrement
      exact hset
    · cases hincrement
      exact hset

theorem MapDelta.inWidth_incrementEntry {delta later : MapDelta}
    {key : String} {amount : Number}
    (hupdates : (Value.map delta.updates).InWidth table passed (some element))
    (hincrement : delta.incrementEntry key amount element = .ok later) :
    (Value.map later.updates).InWidth table passed (some element) := by
  unfold incrementEntry at hincrement
  split at hincrement
  · cases hincrement
    exact hupdates.put (inWidth_addAmount (rfl : addAmount .null amount element = _))
  · split at hincrement
    · obtain ⟨sum, hsum, hlater⟩ := bind_eq_ok_iff.mp hincrement
      cases hlater
      exact hupdates.put (inWidth_addAmount hsum)
    · cases hincrement
      exact hupdates
    · cases hincrement
      exact hupdates

end Deltas

/-! ### Views of pending changes -/

mutual

/-- What is pending as it was passed is within its width, or was passed; nested objects are of the
types of their fields. -/
def FieldMutation.InWidth (table : TableSchema) (passed : Number → Prop) (type : ValueType) :
    FieldMutation → Prop
  | .scalar delta => (delta.set.getD .null).InWidth table passed type.element
  | .collection delta => delta.asPassed.InWidth table passed type.element
  | .object nested mutations => type = .scalar (.object nested.typeName) ∧ nested.IsShaped table ∧
      AllInWidth table passed nested.typeName mutations

def FieldMutation.AllInWidth (table : TableSchema) (passed : Number → Prop) (typeName : String) :
    List (String × FieldMutation) → Prop
  | [] => True
  | (name, mutation) :: rest => (∃ field, table.fieldOf? typeName name = some field ∧
      mutation.InWidth table passed field.type) ∧ AllInWidth table passed typeName rest

end

theorem FieldMutation.allInWidth_iff {typeName : String}
    {mutations : List (String × FieldMutation)} :
    AllInWidth table passed typeName mutations ↔ ∀ entry ∈ mutations, ∃ field,
      table.fieldOf? typeName entry.1 = some field ∧ entry.2.InWidth table passed field.type := by
  induction mutations with
  | nil => simp [AllInWidth]
  | cons entry rest ih => rw [AllInWidth, ih, List.forall_mem_cons]

theorem Record.IsShaped.inWidth {record : Record} (hrecord : record.IsShaped table) :
    record.InWidth table passed :=
  fun name value field hheld hfield => (hrecord name value field hheld hfield).2.inWidth

/-- What each field reads as where it is absent is within its width. -/
def TableSchema.AbsentInWidth (table : TableSchema) : Prop :=
  ∀ (passed : Number → Prop) typeName name field, table.fieldOf? typeName name = some field →
    field.absentValue.InWidth table passed field.type.element

theorem TableDescription.absentInWidth_of_resolve {description : TableDescription}
    (hresolve : description.resolve = .ok table) : table.AbsentInWidth :=
  fun _ _ _ _ hfield => FieldSchema.inWidth_absentValue (accepted_of_resolve hresolve)
    (readsDefaults_of_resolve hresolve) hfield

theorem FieldSchema.inWidth_settled (habsent : table.AbsentInWidth) {typeName name : String}
    {field : FieldSchema} (hfield : table.fieldOf? typeName name = some field) {value : Value}
    (hvalue : value.InWidth table passed field.type.element) :
    (field.settled value).InWidth table passed field.type.element := by
  unfold settled
  split
  · exact habsent passed typeName name field hfield
  · exact hvalue

mutual

/-- What a field shows is what a pending change makes of its base. -/
theorem FieldMutation.inWidth_latest (habsent : table.AbsentInWidth) :
    ∀ (mutation : FieldMutation) {field : FieldSchema} {base value : Value},
      mutation.InWidth table passed field.type →
      base.InWidth table passed field.type.element →
      mutation.latest table field base = .ok value →
      value.InWidth table passed field.type.element
  | .scalar delta, field, base, value, hmutation, hbase, hlatest => by
    obtain ⟨element, helement, hmerge⟩ := bind_eq_ok_iff.mp hlatest
    rw [FieldMutation.InWidth, ValueType.requireElement_eq_ok_iff.mp helement] at hmutation
    rw [ValueType.requireElement_eq_ok_iff.mp helement] at hbase ⊢
    exact ScalarDelta.inWidth_merge hmutation hbase hmerge
  | .collection delta, field, base, value, hmutation, hbase, hlatest => by
    obtain ⟨element, helement, hmerge⟩ := bind_eq_ok_iff.mp hlatest
    rw [FieldMutation.InWidth, ValueType.requireElement_eq_ok_iff.mp helement] at hmutation
    rw [ValueType.requireElement_eq_ok_iff.mp helement] at hbase ⊢
    exact CollectionDelta.inWidth_merge hmutation hbase hmerge
  | .object nested mutations, field, base, value, hmutation, hbase, hlatest => by
    obtain ⟨_, hshaped, hmutations⟩ := hmutation
    obtain ⟨type, htype, hlatest⟩ := bind_eq_ok_iff.mp hlatest
    obtain ⟨record, hrecord, hvalue⟩ := bind_eq_ok_iff.mp hlatest
    cases hvalue
    rw [Record.inWidth_toValue_iff]
    exact FieldMutation.inWidth_viewFields habsent mutations
      (TableSchema.requireType_eq_ok_iff.mp htype) rfl hshaped.inWidth hshaped.inWidth hmutations
      hrecord

theorem FieldMutation.inWidth_viewFields (habsent : table.AbsentInWidth) :
    ∀ (mutations : List (String × FieldMutation)) {type : TypeSchema} {base record viewed : Record},
      table.type? base.typeName = some type → record.typeName = base.typeName →
      base.InWidth table passed → record.InWidth table passed →
      AllInWidth table passed base.typeName mutations →
      viewFields table type base record mutations = .ok viewed → viewed.InWidth table passed
  | [], type, base, record, viewed, _, _, _, hrecord, _, hview => by
    cases hview
    exact hrecord
  | (name, mutation) :: rest, type, base, record, viewed, htype, hsame, hbase, hrecord, hall,
      hview => by
    obtain ⟨⟨field, hfield, hmutation⟩, hrest⟩ := hall
    rw [viewFields, TableSchema.requireField_of_fieldOf? htype hfield, ok_bind] at hview
    obtain ⟨value, hvalue, hview⟩ := bind_eq_ok_iff.mp hview
    -- A change is merged with what the base holds, not with what the record shows by now.
    have hlatest :=
      FieldMutation.inWidth_latest habsent mutation hmutation (hbase.getD hfield) hvalue
    have hset := hrecord.set (hsame.symm ▸ hfield)
      (FieldSchema.inWidth_settled habsent hfield hlatest)
    have htypeName : (record.set name (field.settled value)).typeName = base.typeName := hsame
    exact FieldMutation.inWidth_viewFields habsent rest htype htypeName hbase hset hrest hview

end

/-! ### Changes -/

/-- The values that a mutation keeps as they are passed; amounts are not among them. -/
def Mutation.values : Mutation → List Value
  | .set value | .putEntry _ value | .addElement value => [value]
  | .append values => values
  | _ => []

/-- The object with its pending changes: what it began with was read, and what is pending as it was
passed is within its width, or was passed. -/
structure ObjectUpdate.InWidth (table : TableSchema) (passed : Number → Prop) (typeName : String)
    (update : ObjectUpdate) : Prop where
  type : update.base.typeName = typeName
  shaped : update.base.IsShaped table
  pending : FieldMutation.AllInWidth table passed typeName update.mutations

namespace ObjectUpdate

variable {name typeName : String} {update later : ObjectUpdate} {field : FieldSchema}

namespace InWidth

theorem withMutation {mutation : FieldMutation} (hupdate : update.InWidth table passed typeName)
    (hfield : table.fieldOf? typeName name = some field)
    (hmutation : mutation.InWidth table passed field.type) :
    (update.withMutation name mutation).InWidth table passed typeName := by
  refine ⟨hupdate.type, hupdate.shaped, FieldMutation.allInWidth_iff.mpr fun entry hmem => ?_⟩
  rcases Entries.mem_put hmem with rfl | hmem
  · exact ⟨field, hfield, hmutation⟩
  · exact FieldMutation.allInWidth_iff.mp hupdate.pending entry hmem

theorem makes {mutation : FieldMutation} (hupdate : update.InWidth table passed typeName)
    (hmakes : Makes table name update later field mutation)
    (hmutation : mutation.InWidth table passed field.type) :
    later.InWidth table passed typeName := by
  rw [hmakes.later]
  exact hupdate.withMutation (hupdate.type ▸ hmakes.declared) hmutation

theorem mutation? {mutation : FieldMutation} (hupdate : update.InWidth table passed typeName)
    (hpending : update.mutation? name = some mutation)
    (hfield : table.fieldOf? update.base.typeName name = some field) :
    mutation.InWidth table passed field.type := by
  obtain ⟨other, hother, hmutation⟩ :=
    FieldMutation.allInWidth_iff.mp hupdate.pending _ (Entries.mem_of_find? hpending)
  rw [hupdate.type] at hfield
  cases hother.symm.trans hfield
  exact hmutation

end InWidth

theorem set_inWidth {value : Value} (hupdate : update.InWidth table passed typeName)
    (hvalue : ∀ field, table.fieldOf? typeName name = some field →
      value.InWidth table passed field.type.element)
    (hrun : (set table name value).run.run update = (.ok (), later)) :
    later.InWidth table passed typeName := by
  obtain ⟨field, hmakes⟩ := set_ok hrun
  refine hupdate.makes hmakes ?_
  split
  · exact Value.inWidth_null
  · exact hvalue field (hupdate.type ▸ hmakes.declared)

theorem increment_inWidth {amount : Number} (hupdate : update.InWidth table passed typeName)
    (hrun : (increment table name amount).run.run update = (.ok (), later)) :
    later.InWidth table passed typeName := by
  obtain ⟨field, element, before, after, hmakes, htype, hpending, hafter⟩ := increment_ok hrun
  refine hupdate.makes hmakes ?_
  have hbefore : (before.set.getD .null).InWidth table passed (some element) := by
    rcases hpending with ⟨_, rfl⟩ | hpending
    · exact Value.inWidth_null
    · have hscalar := hupdate.mutation? hpending hmakes.declared
      rw [htype] at hscalar
      exact hscalar
  rw [htype]
  exact ScalarDelta.inWidth_increment hbefore hafter

/-- A change of a collection, which begins with what is pending for it or replaces it. -/
theorem changeCollection_inWidth {kind : Kind} {empty : CollectionDelta}
    {change : CollectionDelta → ElementType → Except Error CollectionDelta}
    (hupdate : update.InWidth table passed typeName)
    (hempty : ∀ element, empty.asPassed.InWidth table passed element)
    (hchange : ∀ field element before after, table.fieldOf? typeName name = some field →
      field.type.element = some element → before.asPassed.InWidth table passed (some element) →
      change before element = .ok after → after.asPassed.InWidth table passed (some element))
    (hrun : (changeCollection table name kind empty change).run.run update = (.ok (), later)) :
    later.InWidth table passed typeName := by
  obtain ⟨field, element, htype, ⟨before, after, hmakes, hpending, hafter⟩ |
    ⟨whole, delta, value, hmakes, hpending, hdelta, hvalue⟩⟩ := changeCollection_ok hrun
  -- Either the pending change goes on, or it is merged into the value that replaced the field.
  all_goals
    have helement : field.type.element = some element := by rw [htype]
    have hfield : table.fieldOf? typeName name = some field := hupdate.type ▸ hmakes.declared
    refine hupdate.makes hmakes ?_
    rw [FieldMutation.InWidth, helement]
  · refine hchange field element before after hfield helement ?_ hafter
    rcases hpending with ⟨_, rfl⟩ | hpending
    · exact hempty _
    · rw [← helement]
      exact hupdate.mutation? hpending hmakes.declared
  · have hwhole : (whole.set.getD .null).InWidth table passed (some element) := by
      rw [← helement]
      exact hupdate.mutation? hpending hmakes.declared
    exact CollectionDelta.inWidth_merge
      (hchange field element empty delta hfield helement (hempty _) hdelta) hwhole hvalue

theorem changeMap_inWidth {change : MapDelta → ElementType → Except Error MapDelta}
    (hupdate : update.InWidth table passed typeName)
    (hchange : ∀ field element before after, table.fieldOf? typeName name = some field →
      field.type.element = some element →
      (Value.map before.updates).InWidth table passed (some element) →
      change before element = .ok after →
      (Value.map after.updates).InWidth table passed (some element))
    (hrun : (changeMap table name change).run.run update = (.ok (), later)) :
    later.InWidth table passed typeName := by
  refine changeCollection_inWidth hupdate (fun _ => Value.inWidth_map_nil) ?_ hrun
  intro field element before after hfield helement hbefore hafter
  cases before with
  | map before =>
    obtain ⟨changed, hchanged, rfl⟩ := map_eq_ok_iff.mp hafter
    exact hchange field element before changed hfield helement hbefore hchanged
  | set before | list before =>
    cases hafter
    exact hbefore

theorem changeSet_inWidth {change : SetDelta → SetDelta}
    (hupdate : update.InWidth table passed typeName)
    (hchange : ∀ field before, table.fieldOf? typeName name = some field →
      (Value.set before.adds).InWidth table passed field.type.element →
      (Value.set (change before).adds).InWidth table passed field.type.element)
    (hrun : (changeSet table name change).run.run update = (.ok (), later)) :
    later.InWidth table passed typeName := by
  refine changeCollection_inWidth hupdate (fun _ => Value.inWidth_set_nil) ?_ hrun
  intro field element before after hfield helement hbefore hafter
  rw [← helement] at hbefore ⊢
  cases before with
  | set before =>
    cases hafter
    exact hchange field before hfield hbefore
  | map before | list before =>
    cases hafter
    exact hbefore

theorem append_inWidth {values : List Value} (hupdate : update.InWidth table passed typeName)
    (hvalues : ∀ field, table.fieldOf? typeName name = some field →
      (Value.list values).InWidth table passed field.type.element)
    (hrun : (append table name values).run.run update = (.ok (), later)) :
    later.InWidth table passed typeName := by
  refine changeCollection_inWidth hupdate (fun _ => Value.inWidth_list_nil) ?_ hrun
  intro field element before after hfield helement hbefore hafter
  rw [← helement] at hbefore ⊢
  cases before with
  | list before =>
    cases hafter
    exact hbefore.append (hvalues field hfield)
  | map before | set before =>
    cases hafter
    exact hbefore

theorem clear_inWidth (hupdate : update.InWidth table passed typeName)
    (hrun : (clear table name).run.run update = (.ok (), later)) :
    later.InWidth table passed typeName := by
  obtain ⟨field, delta, hmakes, hnone⟩ := clear_ok hrun
  refine hupdate.makes hmakes ?_
  rw [FieldMutation.InWidth]
  generalize field.type.kind = kind at hnone
  cases kind <;> cases hnone
  · exact Value.inWidth_map_nil
  · exact Value.inWidth_list_nil
  · exact Value.inWidth_set_nil

/-- An object that is entered begins with what its field holds, of the type of the field. -/
theorem enter_inWidth (table : TableSchema) (passed : Number → Prop) (name typeName : String) :
    Yields (InWidth table passed typeName)
      (fun nested => ∃ field, table.fieldOf? typeName name = some field ∧
        field.type = .scalar (.object nested.base.typeName) ∧
        nested.InWidth table passed nested.base.typeName) (enter table name) := by
  intro update hupdate
  rcases hrun : (enter table name).run.run update with ⟨error | nested, later⟩
  · rw [enter_error hrun]
    exact ⟨hupdate, nofun⟩
  · obtain ⟨field, nestedType, hfield, htype, hlater, hpending⟩ := enter_ok hrun
    have hnested : (FieldMutation.object nested.base nested.mutations).InWidth table passed
        field.type := by
      rcases hpending with ⟨_, hbase, hnil⟩ | hpending
      · have hsame : nested.base.typeName = nestedType := by
          rw [hbase]
          exact hupdate.shaped.typeName_objectAt hfield htype
        refine ⟨by rw [hsame, htype], ?_, ?_⟩
        · rw [hbase]
          exact hupdate.shaped.objectAt hfield htype
        · rw [hnil]
          trivial
      · exact hupdate.mutation? hpending hfield
    rw [hupdate.type] at hfield
    refine ⟨?_, fun value hvalue => ?_⟩
    · rw [hlater]
      exact hupdate.withMutation hfield hnested
    · cases hvalue
      obtain ⟨hsame, hshaped, hmutations⟩ := hnested
      exact ⟨field, hfield, hsame, rfl, hshaped, hmutations⟩

theorem setMutation_inWidth {mutation : FieldMutation}
    (hfield : table.fieldOf? typeName name = some field)
    (hmutation : mutation.InWidth table passed field.type) :
    Preserves (InWidth table passed typeName) (setMutation name mutation) :=
  .modify fun _ hupdate => hupdate.withMutation hfield hmutation

/-- What holds of a change to every object of a type holds of it where a path leads. -/
theorem within_inWidth {admits : FieldSchema → Prop} {change : Updating Unit}
    {path : List String} {target : String}
    (hchange : ∀ typeName, (∀ field, table.fieldOf? typeName target = some field → admits field) →
      Preserves (InWidth table passed typeName) change)
    (hadmits : ∀ field, table.fieldAt? typeName path target = some field → admits field) :
    Preserves (InWidth table passed typeName) (within table path change) := by
  induction path generalizing typeName with
  | nil => exact hchange typeName hadmits
  | cons name rest ih =>
    refine (enter_inWidth table passed name typeName).bind_preserves fun nested hentered => ?_
    obtain ⟨field, hfield, htype, hnested⟩ := hentered
    have hlater := @ih nested.base.typeName (fun other hother => hadmits other ?_) nested hnested
    · rcases hrun : (within table rest change).run.run nested with ⟨outcome, nestedLater⟩
      rw [hrun] at hlater
      have hmutation : (FieldMutation.object nestedLater.base nestedLater.mutations).InWidth table
          passed field.type := by
        refine ⟨?_, hlater.shaped, ?_⟩
        · rw [hlater.type, htype]
        · rw [hlater.type]
          exact hlater.pending
      refine (setMutation_inWidth hfield hmutation).bind fun _ => ?_
      cases outcome with
      | ok _ => exact .pure ()
      | error error => exact .throw error
    · rw [TableSchema.fieldAt?, hfield, Option.bind_some, htype]
      exact hother

end ObjectUpdate

section Changes

variable {typeName : String}

/-- A mutation that succeeds. -/
theorem Mutation.inWidth_of_ok {name : String} {mutation : Mutation} {update later : ObjectUpdate}
    (hvalues : ∀ field, table.fieldOf? typeName name = some field →
      ∀ value ∈ mutation.values, value.InWidth table passed field.type.element)
    (hupdate : update.InWidth table passed typeName)
    (hrun : (mutation.make table name).run.run update = (.ok (), later)) :
    later.InWidth table passed typeName := by
  cases mutation <;> rw [make] at hrun
  case set value =>
    exact ObjectUpdate.set_inWidth hupdate
      (fun field hfield => hvalues field hfield value List.mem_cons_self) hrun
  case remove => exact ObjectUpdate.set_inWidth hupdate (fun _ _ => Value.inWidth_null) hrun
  case increment amount => exact ObjectUpdate.increment_inWidth hupdate hrun
  case putEntry key value =>
    refine ObjectUpdate.changeMap_inWidth hupdate ?_ hrun
    intro field element before after hfield helement hbefore hafter
    cases hafter
    rw [← helement] at hbefore ⊢
    exact hbefore.put (hvalues field hfield value List.mem_cons_self)
  case incrementEntry key amount =>
    refine ObjectUpdate.changeMap_inWidth hupdate ?_ hrun
    intro field element before after _ _ hbefore hafter
    split at hafter
    · exact MapDelta.inWidth_incrementEntry hbefore hafter
    · cases hafter
  case deleteEntry key =>
    refine ObjectUpdate.changeMap_inWidth hupdate ?_ hrun
    intro field element before after _ _ hbefore hafter
    cases hafter
    rw [MapDelta.deleteEntry, Entries.erase_eq_filter]
    exact hbefore.filterEntries _
  case addElement value =>
    refine ObjectUpdate.changeSet_inWidth hupdate ?_ hrun
    intro field before hfield hbefore
    exact hbefore.adjoin (hvalues field hfield value List.mem_cons_self)
  case deleteElement value =>
    refine ObjectUpdate.changeSet_inWidth hupdate ?_ hrun
    intro field before _ hbefore
    exact hbefore.filterElements _
  case append values =>
    exact ObjectUpdate.append_inWidth hupdate
      (fun field hfield => Value.inWidth_list_iff.mpr (hvalues field hfield)) hrun
  case clear => exact ObjectUpdate.clear_inWidth hupdate hrun
  case enter =>
    obtain ⟨nested, between, henter, hdone⟩ := run_bind_ok hrun
    obtain ⟨_, rfl⟩ := run_pure_ok hdone
    have hentered := (ObjectUpdate.enter_inWidth table passed name typeName update hupdate).1
    rw [henter] at hentered
    exact hentered

/-- A mutation keeps the pending changes within their width whether it succeeds or fails, when the
values that it keeps are. -/
theorem Mutation.make_inWidth {name : String} {mutation : Mutation}
    (hvalues : ∀ field, table.fieldOf? typeName name = some field →
      ∀ value ∈ mutation.values, value.InWidth table passed field.type.element) :
    Preserves (ObjectUpdate.InWidth table passed typeName) (mutation.make table name) := by
  refine .of_run fun update outcome later hupdate hrun => ?_
  cases outcome with
  | ok _ => exact inWidth_of_ok hvalues hupdate hrun
  | error error =>
    rcases mutation.make_error hrun with rfl | ⟨field, element, hrefused⟩
    · exact hupdate
    · -- What is refused late leaves a map without changes pending.
      rw [hrefused.later]
      exact hupdate.withMutation (hupdate.type ▸ hrefused.declared) Value.inWidth_map_nil

/-- A change keeps the pending changes within their width whether it succeeds or fails, when the
values that it keeps are. -/
theorem FieldChange.make_inWidth {change : FieldChange}
    (hvalues : ∀ field, table.fieldAt? typeName change.path change.field = some field →
      ∀ value ∈ change.mutation.values, value.InWidth table passed field.type.element) :
    Preserves (ObjectUpdate.InWidth table passed typeName) (change.make table) :=
  ObjectUpdate.within_inWidth (fun _ hfield => Mutation.make_inWidth hfield) hvalues

end Changes

/-! ### Runs of changes -/

/-- A change passes a number where an integer is declared, in a value that it keeps. -/
def FieldChange.Passes (table : TableSchema) (typeName : String) (number : Number)
    (change : FieldChange) : Prop :=
  ∃ field value, table.fieldAt? typeName change.path change.field = some field ∧
    value ∈ change.mutation.values ∧ value.ShowsInteger table number field.type.element

namespace Update

variable {update later : Update} {changes : List FieldChange} {base viewed : Record}
  {typeName : String}

/-- Makes changes one after another, those that fail included. -/
def attemptAll (table : TableSchema) (update : Update) (changes : List FieldChange) : Update :=
  changes.foldl (fun update change => (update.change table change).2) update

theorem attemptAll_of_changeAll (hchanges : update.changeAll table changes = .ok later) :
    update.attemptAll table changes = later := by
  induction changes generalizing update with
  | nil =>
    cases hchanges
    rfl
  | cons change rest ih =>
    rw [changeAll] at hchanges
    split at hchanges
    · rename_i between hchange
      rw [attemptAll, List.foldl_cons, hchange]
      exact ih hchanges
    · cases hchanges

theorem attemptAll_inWidth (hupdate : update.object.InWidth table passed typeName)
    (hvalues : ∀ change ∈ changes, ∀ number, change.Passes table typeName number →
      number.InWidth ∨ passed number) :
    (update.attemptAll table changes).object.InWidth table passed typeName := by
  induction changes generalizing update with
  | nil => exact hupdate
  | cons change rest ih =>
    refine ih ?_ fun other hmem => hvalues other (.tail _ hmem)
    refine FieldChange.make_inWidth ?_ update.object hupdate
    intro field hfield value hvalue number hshows
    exact hvalues change List.mem_cons_self number ⟨field, value, hfield, hvalue, hshows⟩

theorem start_inWidth (hbase : base.IsShaped table) (hstart : start table base = .ok update) :
    update.object.InWidth table passed base.typeName := by
  unfold start at hstart
  split at hstart
  · cases hstart
  · obtain ⟨key, _, hstart⟩ := bind_eq_ok_iff.mp hstart
    obtain ⟨type, _, hdone⟩ := bind_eq_ok_iff.mp hstart
    cases hdone
    exact ⟨rfl, hbase, trivial⟩

theorem inWidth_view (habsent : table.AbsentInWidth)
    (hupdate : update.object.InWidth table passed typeName)
    (hview : update.view table = .ok viewed) : viewed.InWidth table passed := by
  obtain ⟨record, hrecord, hview⟩ := bind_eq_ok_iff.mp hview
  have hwidth : record.InWidth table passed := by
    obtain ⟨type, htype, hfields⟩ := bind_eq_ok_iff.mp hrecord
    have hpending := hupdate.pending
    rw [← hupdate.type] at hpending
    exact FieldMutation.inWidth_viewFields habsent _ (TableSchema.requireType_eq_ok_iff.mp htype)
      rfl hupdate.shaped.inWidth hupdate.shaped.inWidth hpending hfields
  -- The revision is not a field.
  split at hview
  · cases hview
    exact hwidth
  · obtain ⟨writes, _, hview⟩ := bind_eq_ok_iff.mp hview
    split at hview <;> cases hview <;> exact hwidth

/-- Whatever changes are made on a record that was read, and whether they succeed or fail, an
integer that the view shows is within its width, unless one of the changes passed that very number
in a value that it keeps. -/
theorem inWidth_or_passed {description : TableDescription} {item : Item} {number : Number}
    (hresolve : description.resolve = .ok table) (hread : Record.ofItem table item = .ok base)
    (hstart : start table base = .ok update)
    (hview : (update.attemptAll table changes).view table = .ok viewed)
    (hshows : viewed.toValue.ShowsInteger table number (some (.object viewed.typeName))) :
    number.InWidth ∨ ∃ change ∈ changes, change.Passes table base.typeName number := by
  have hstarted : update.object.InWidth table
      (fun number => ∃ change ∈ changes, change.Passes table base.typeName number) base.typeName :=
    start_inWidth (Record.isShaped_of_ofItem hresolve hread) hstart
  have hmade := attemptAll_inWidth hstarted fun change hmem number hpasses =>
    .inr ⟨change, hmem, hpasses⟩
  have hviewed := inWidth_view (TableDescription.absentInWidth_of_resolve hresolve) hmade hview
  exact Record.inWidth_toValue_iff.mpr hviewed number hshows

/-- When the numbers that changes pass are within their width, so are the integers that the view
shows, and storing them gives them back. Amounts may be arbitrary. -/
theorem integers_of_view {description : TableDescription} {item : Item} {number : Number}
    (hresolve : description.resolve = .ok table) (hread : Record.ofItem table item = .ok base)
    (hstart : start table base = .ok update)
    (hpassed : ∀ change ∈ changes, ∀ number, change.Passes table base.typeName number →
      number.InWidth)
    (hview : (update.attemptAll table changes).view table = .ok viewed)
    (hshows : viewed.toValue.ShowsInteger table number (some (.object viewed.typeName))) :
    (∃ value : Int64, number = .integer value ∧ -2 ^ 31 ≤ value.toInt ∧ value.toInt < 2 ^ 31) ∧
      (Codec.encode table .plain (.scalar .integer) (.number number) >>=
        Codec.decode table .plain (.scalar .integer)) = .ok (.number number) := by
  have hwidth : number.InWidth := by
    rcases inWidth_or_passed hresolve hread hstart hview hshows with
      hwidth | ⟨change, hmem, hpasses⟩
    · exact hwidth
    · exact hpassed change hmem number hpasses
  exact ⟨Number.inWidth_iff.mp hwidth, (Codec.decode_encode_integer_iff number).mpr hwidth⟩

/-- The number in a map of one. -/
def soleInteger? : Value → Option Int64
  | .map [(_, .number (.integer value))] => some value
  | _ => none

/-- A height of one more than 31 bits can hold. -/
def climbs : List FieldChange :=
  [⟨[], "peaks", .incrementEntry "west" (.integer 2147483648)⟩]

theorem integers_of_view_hiker : ∃ table base update viewed,
    hikerDescription.resolve = .ok table ∧
    Record.ofItem table [("name", .string "Jane")] = .ok base ∧ start table base = .ok update ∧
    (update.attemptAll table climbs).view table = .ok viewed ∧
    viewed.toValue.ShowsInteger table (.integer (-2147483648)) (some (.object viewed.typeName)) ∧
    (Codec.encode table .plain (.scalar .integer) (.number (.integer (-2147483648))) >>=
      Codec.decode table .plain (.scalar .integer)) = .ok (.number (.integer (-2147483648))) := by
  have hshown : (hikerDescription.resolve.toOption.bind fun table =>
      (Record.ofItem table [("name", .string "Jane")]).toOption.bind fun base =>
      (start table base).toOption.bind fun update =>
      ((update.attemptAll table climbs).view table).toOption.bind fun viewed =>
      (table.fieldOf? viewed.typeName "peaks").bind fun field =>
      (viewed.get? "peaks").bind fun peaks =>
      if field.type.element = some .integer then soleInteger? peaks else none) =
        some (-2147483648) := by
    decide +kernel
  simp only [Option.bind_eq_some_iff, toOption_eq_some_iff] at hshown
  obtain ⟨table, hresolve, base, hread, update, hstart, viewed, hview, field, hfield, peaks, hheld,
    hpeaks⟩ := hshown
  split at hpeaks
  · rename_i helement
    unfold soleInteger? at hpeaks
    split at hpeaks <;> cases hpeaks
    have hshows : viewed.toValue.ShowsInteger table (.integer (-2147483648))
        (some (.object viewed.typeName)) := by
      refine .field hheld hfield ?_
      rw [helement]
      exact .entry List.mem_cons_self .number
    have hpassed : ∀ change ∈ climbs, ∀ number, change.Passes table base.typeName number →
        number.InWidth := by
      rintro change hmem number ⟨_, value, _, hvalue, _⟩
      rw [List.mem_singleton.mp hmem] at hvalue
      cases hvalue
    exact ⟨table, base, update, viewed, hresolve, hread, hstart, hview, hshows,
      (integers_of_view hresolve hread hstart hpassed hview hshows).2⟩
  · cases hpeaks

/-- What the view shows of the score of a player that one change is made on. -/
def scoreShown (mutation : Mutation) : Option Value :=
  (((⟨[], ⟨player, true, []⟩⟩ : Update).attemptAll playersTable
    [⟨[], "score", mutation⟩]).view playersTable).toOption.bind fun record => record.get? "score"

-- An amount wraps around as it is added, and a value that replaces another one is kept.
example : scoreShown (.increment (.integer 2147483647)) =
    some (.number (.integer (-2147483639))) := rfl

example : scoreShown (.set (.number (.integer 2147483657))) =
    some (.number (.integer 2147483657)) := rfl

end Update

end RecordStore
