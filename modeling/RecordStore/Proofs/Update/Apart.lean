import RecordStore.Proofs.Locking.Fence
import RecordStore.Proofs.Update.Distinct
import RecordStore.Proofs.Update.Independence

/-!
# Clauses at paths of their own

Each field is written at its own attribute, each key of a map below that of its field, and nothing is
pending twice. So no two clauses of an update act at paths that meet, and none acts at the key of the
record or at its counters but the one that advances the revision.
-/

namespace RecordStore

open Expression (Action Builder Building Clauses)

namespace Expression.Clauses

variable {clauses added : Clauses} {path : List String} {action other : Action}

/-- No two actions of the clauses have paths that meet. -/
def Apart (clauses : Clauses) : Prop :=
  Expression.Apart clauses.actions

theorem apart_none : Apart .none :=
  List.Pairwise.nil

theorem apart_single (hactions : clauses.actions = [action]) : clauses.Apart := by
  rw [Apart, hactions]
  exact List.pairwise_singleton _ _

theorem perm_actions_append (clauses added : Clauses) :
    (clauses ++ added).actions.Perm (clauses.actions ++ added.actions) := by
  rw [← Multiset.coe_eq_coe]
  simp only [actions, append_set, append_remove, append_add, append_delete, ← Multiset.coe_add]
  abel

theorem Apart.append (hclauses : clauses.Apart) (hadded : added.Apart)
    (hacross : ∀ action ∈ clauses.actions, ∀ other ∈ added.actions,
      ¬ Overlap action.path other.path) : (clauses ++ added).Apart := by
  have hboth : Expression.Apart (clauses.actions ++ added.actions) :=
    List.pairwise_append.mpr ⟨hclauses, hadded, hacross⟩
  exact hboth.perm (perm_actions_append clauses added)

/-- Clauses without actions add none. -/
theorem actions_append_left (hadded : added.actions = []) :
    (clauses ++ added).actions = clauses.actions := by
  simp only [actions, List.append_eq_nil_iff] at hadded
  simp [actions, hadded]

theorem actions_append_right (hclauses : clauses.actions = []) :
    (clauses ++ added).actions = added.actions := by
  simp only [actions, List.append_eq_nil_iff] at hclauses
  simp [actions, hclauses]

theorem EditsBelow.below (hedits : clauses.EditsBelow path) : clauses.Below path := by
  intro action hmem
  obtain ⟨edit, rfl⟩ := hedits action hmem
  rw [Edit.path_action]
  exact List.prefix_append path edit.path

theorem eq_of_below {first second : String} {longer : List String}
    (hfirst : path ++ [first] <+: longer) (hsecond : path ++ [second] <+: longer) :
    first = second := by
  have hextends := List.prefix_of_prefix_length_le hfirst hsecond (by simp)
  simpa using hextends.eq_of_length (by simp)

/-- Paths below different names of one place do not meet. -/
theorem not_overlap_of_below {first second : String} {left right : List String}
    (hne : first ≠ second) (hleft : path ++ [first] <+: left) (hright : path ++ [second] <+: right) :
    ¬ Overlap left right := by
  rintro (hextends | hextends)
  · exact hne (eq_of_below (hleft.trans hextends) hright)
  · exact hne (eq_of_below hleft (hright.trans hextends))

section Gathered

variable {α : Type} {nameOf : α → String} {write : α → Except Error Clauses} {items : List α}

theorem mem_gather (hgather : gather write items = .ok clauses) (hmem : action ∈ clauses.actions) :
    ∃ item ∈ items, ∃ part, write item = .ok part ∧ action ∈ part.actions := by
  induction items generalizing clauses with
  | nil =>
    cases hgather
    cases hmem
  | cons item rest ih =>
    obtain ⟨first, hfirst, hothers⟩ := bind_eq_ok_iff.mp hgather
    obtain ⟨others, hrest, hdone⟩ := bind_eq_ok_iff.mp hothers
    cases hdone
    rcases mem_actions_append.mp hmem with hmem | hmem
    · exact ⟨item, List.mem_cons_self, first, hfirst, hmem⟩
    · obtain ⟨found, hfound, part⟩ := ih hrest hmem
      exact ⟨found, List.mem_cons_of_mem _ hfound, part⟩

/-- Items with names of their own are written apart. -/
theorem apart_gather
    (hwrite : ∀ item part, write item = .ok part → part.Apart ∧ part.Below (path ++ [nameOf item]))
    (hnames : (items.map nameOf).Nodup) (hgather : gather write items = .ok clauses) :
    clauses.Apart := by
  induction items generalizing clauses with
  | nil =>
    cases hgather
    exact apart_none
  | cons item rest ih =>
    obtain ⟨first, hfirst, hothers⟩ := bind_eq_ok_iff.mp hgather
    obtain ⟨others, hrest, hdone⟩ := bind_eq_ok_iff.mp hothers
    cases hdone
    obtain ⟨hfresh, hnames⟩ := List.nodup_cons.mp hnames
    refine (hwrite item first hfirst).1.append (ih hnames hrest) fun action hmem other hother => ?_
    obtain ⟨found, hfound, part, hpart, hother⟩ := mem_gather hrest hother
    refine not_overlap_of_below ?_ ((hwrite item first hfirst).2 action hmem)
      ((hwrite found part hpart).2 other hother)
    exact fun hsame => hfresh (hsame ▸ List.mem_map_of_mem hfound)

end Gathered

end Expression.Clauses

/-! ### Clauses of changed fields -/

section Changes

open Expression.Clauses (apart_none apart_single apart_gather not_overlap_of_below mem_gather)

variable {table : TableSchema} {path : List String} {added : Clauses}

theorem apart_valueClauses {type : ValueType} {value : Value}
    (hadded : valueClauses table path type value = .ok added) : added.Apart := by
  obtain ⟨stored, _, rfl⟩ := map_eq_ok_iff.mp hadded
  exact apart_single rfl

theorem apart_fieldClauses {field : FieldSchema} {value : Value}
    (hadded : fieldClauses table path field value = .ok added) : added.Apart := by
  unfold fieldClauses at hadded
  split at hadded
  · cases hadded
    exact apart_single rfl
  · obtain ⟨stored, _, rfl⟩ := map_eq_ok_iff.mp hadded
    exact apart_single rfl

theorem apart_increaseClauses {amount : Number} {element : ElementType}
    (hadded : increaseClauses path amount element = .ok added) : added.Apart := by
  unfold increaseClauses Builder.incrementClauses at hadded
  split at hadded
  · split at hadded <;> cases hadded <;> exact apart_single rfl
  · cases hadded

theorem apart_elementClauses {kind : Kind} {type : ValueType} {form : Attribute → Clauses}
    {elements : List Value} (hform : ∀ encoded, (form encoded).Apart)
    (hadded : elementClauses table kind type form elements = .ok added) : added.Apart := by
  unfold elementClauses at hadded
  split at hadded
  · cases hadded
    exact apart_none
  · obtain ⟨encoded, _, rfl⟩ := map_eq_ok_iff.mp hadded
    exact hform encoded

namespace MapDelta

variable {delta : MapDelta} {element : ElementType} {action : Action}

/-- Writing an entry acts below its key, which is not deleted. -/
theorem updateClauses_ok {entry : String × Value}
    (hadded : delta.updateClauses table path element entry = .ok added) :
    added.Apart ∧ added.Below (path ++ [entry.1]) ∧
      (added.actions ≠ [] → entry.1 ∉ delta.deletes) := by
  have hbelow := (editsBelow_updateClauses hadded).below
  unfold updateClauses at hadded
  split at hadded
  · cases hadded
    exact ⟨apart_none, hbelow, fun hne => absurd rfl hne⟩
  · rename_i hdeleted
    exact ⟨apart_valueClauses hadded, hbelow, fun _ => by simpa using hdeleted⟩

/-- Adding to an entry acts below its key, which is neither written nor deleted. -/
theorem amountClauses_ok {entry : String × Number}
    (hadded : delta.amountClauses path element entry = .ok added) :
    added.Apart ∧ added.Below (path ++ [entry.1]) ∧
      (added.actions ≠ [] → entry.1 ∉ Entries.names delta.updates ∧ entry.1 ∉ delta.deletes) := by
  have hbelow := (editsBelow_amountClauses hadded).below
  unfold amountClauses at hadded
  split at hadded
  · cases hadded
    exact ⟨apart_none, hbelow, fun hne => absurd rfl hne⟩
  · rename_i hother
    refine ⟨apart_increaseClauses hadded, hbelow, fun _ => ?_⟩
    simpa [Entries.contains, Entries.mem_names_iff] using hother

theorem deleteClauses_ok {name : String} (hadded : deleteClauses path name = .ok added) :
    added.Apart ∧ added.Below (path ++ [name]) := by
  refine ⟨?_, (editsBelow_deleteClauses hadded).below⟩
  cases hadded
  exact apart_single rfl

/-- The changed entries of a map are written apart. -/
theorem apart_clauses (hdelta : delta.Distinct)
    (hadded : delta.clauses table path element = .ok added) : added.Apart := by
  obtain ⟨updates, hupdates, hadded⟩ := bind_eq_ok_iff.mp hadded
  obtain ⟨amounts, hamounts, hadded⟩ := bind_eq_ok_iff.mp hadded
  obtain ⟨deletes, hdeletes, hdone⟩ := bind_eq_ok_iff.mp hadded
  cases hdone
  have hupdated : ∀ action ∈ updates.actions, ∃ key ∈ Entries.names delta.updates,
      key ∉ delta.deletes ∧ path ++ [key] <+: action.path := by
    intro action hmem
    obtain ⟨entry, hentry, part, hpart, hmem⟩ := mem_gather hupdates hmem
    obtain ⟨_, hbelow, hkept⟩ := updateClauses_ok hpart
    exact ⟨entry.1, List.mem_map_of_mem hentry, hkept (List.ne_nil_of_mem hmem), hbelow action hmem⟩
  have hincreased : ∀ action ∈ amounts.actions, ∃ key, key ∉ Entries.names delta.updates ∧
      key ∉ delta.deletes ∧ path ++ [key] <+: action.path := by
    intro action hmem
    obtain ⟨entry, hentry, part, hpart, hmem⟩ := mem_gather hamounts hmem
    obtain ⟨_, hbelow, hkept⟩ := amountClauses_ok hpart
    obtain ⟨hfresh, hkept⟩ := hkept (List.ne_nil_of_mem hmem)
    exact ⟨entry.1, hfresh, hkept, hbelow action hmem⟩
  have hdeleted : ∀ action ∈ deletes.actions, ∃ key ∈ delta.deletes,
      path ++ [key] <+: action.path := by
    intro action hmem
    obtain ⟨key, hkey, part, hpart, hmem⟩ := mem_gather hdeletes hmem
    exact ⟨key, hkey, (deleteClauses_ok hpart).2 action hmem⟩
  have hapartUpdates : updates.Apart := apart_gather
    (fun entry part hpart => ⟨(updateClauses_ok hpart).1, (updateClauses_ok hpart).2.1⟩)
    hdelta.updates hupdates
  have hapartAmounts : amounts.Apart := apart_gather
    (fun entry part hpart => ⟨(amountClauses_ok hpart).1, (amountClauses_ok hpart).2.1⟩)
    hdelta.amounts hamounts
  have hapartDeletes : deletes.Apart := @apart_gather _ path _ id _ _
    (fun name part hpart => deleteClauses_ok hpart) (by simpa using hdelta.deletes) hdeletes
  refine hapartUpdates.append (hapartAmounts.append hapartDeletes ?_) ?_
  · intro action hmem other hother
    obtain ⟨key, _, hkept, hbelow⟩ := hincreased action hmem
    obtain ⟨gone, hgone, hotherBelow⟩ := hdeleted other hother
    exact not_overlap_of_below (ne_of_mem_of_not_mem hgone hkept).symm hbelow hotherBelow
  · intro action hmem other hother
    obtain ⟨key, hkey, hkept, hbelow⟩ := hupdated action hmem
    rcases Expression.Clauses.mem_actions_append.mp hother with hother | hother
    · obtain ⟨increased, hfresh, _, hotherBelow⟩ := hincreased other hother
      exact not_overlap_of_below (ne_of_mem_of_not_mem hkey hfresh) hbelow hotherBelow
    · obtain ⟨gone, hgone, hotherBelow⟩ := hdeleted other hother
      exact not_overlap_of_below (ne_of_mem_of_not_mem hgone hkept).symm hbelow hotherBelow

end MapDelta

theorem CollectionDelta.apart_clauses {delta : CollectionDelta} {type : ValueType} {base : Value}
    (hdelta : delta.Distinct) (hadded : delta.clauses table path type base = .ok added) :
    added.Apart := by
  unfold CollectionDelta.clauses at hadded
  split at hadded
  · cases hadded
    exact apart_none
  · obtain ⟨element, _, hadded⟩ := bind_eq_ok_iff.mp hadded
    obtain ⟨merged, _, hadded⟩ := bind_eq_ok_iff.mp hadded
    split at hadded
    · exact apart_valueClauses hadded
    · cases delta with
      | map delta => exact MapDelta.apart_clauses hdelta hadded
      | set delta =>
        dsimp only at hadded
        split at hadded
        · exact apart_valueClauses hadded
        · rename_i hboth
          obtain ⟨adds, hadds, hadded⟩ := bind_eq_ok_iff.mp hadded
          obtain ⟨deletes, hdeletes, hdone⟩ := bind_eq_ok_iff.mp hadded
          cases hdone
          -- A set that gains and loses elements at once is written whole.
          have hone : adds.actions = [] ∨ deletes.actions = [] := by
            rw [Bool.and_eq_true, not_and_or] at hboth
            refine hboth.imp (fun hnone => ?_) fun hnone => ?_
            · rw [elementClauses, if_pos (by simpa using hnone)] at hadds
              cases hadds
              rfl
            · rw [elementClauses, if_pos (by simpa using hnone)] at hdeletes
              cases hdeletes
              rfl
          refine (apart_elementClauses (fun _ => apart_single rfl) hadds).append
            (apart_elementClauses (fun _ => apart_single rfl) hdeletes) ?_
          rcases hone with hnone | hnone <;> simp [hnone]
      | list delta =>
        exact apart_elementClauses (fun _ => apart_single rfl) hadded

/-! ### Clauses of objects -/

theorem FieldsDistinct.wireName_ne {counters : CounterNames} {fields : List FieldSchema}
    {first second : FieldSchema} (hfields : FieldsDistinct counters fields)
    (hfirst : first ∈ fields) (hsecond : second ∈ fields) (hfirstPersist : first.persist = true)
    (hsecondPersist : second.persist = true) (hne : first.name ≠ second.name) :
    first.wireName ≠ second.wireName := by
  intro hwire
  have hsame := List.inj_on_of_nodup_map hfields.wireNames
    (List.mem_filter.mpr ⟨hfirst, hfirstPersist⟩) (List.mem_filter.mpr ⟨hsecond, hsecondPersist⟩)
    hwire
  exact hne (congrArg FieldSchema.name hsame)

namespace FieldMutation

variable {type : TypeSchema} {base : Record} {mutations : List (String × FieldMutation)}

/-- Every clause of an object is below the attribute of a field for which something is pending. -/
theorem below_objectClauses (hadded : objectClauses table type base path mutations = .ok added)
    {action : Action} (hmem : action ∈ added.actions) :
    ∃ field ∈ type.fields, field.name ∈ Entries.names mutations ∧ field.persist = true ∧
      path ++ [field.wireName] <+: action.path := by
  induction mutations generalizing added with
  | nil =>
    cases hadded
    cases hmem
  | cons entry rest ih =>
    obtain ⟨name, mutation⟩ := entry
    unfold objectClauses at hadded
    obtain ⟨field, hfield, hadded⟩ := bind_eq_ok_iff.mp hadded
    obtain ⟨others, hothers, hadded⟩ := bind_eq_ok_iff.mp hadded
    have hrest (hmem : action ∈ others.actions) : ∃ field ∈ type.fields,
        field.name ∈ name :: Entries.names rest ∧ field.persist = true ∧
          path ++ [field.wireName] <+: action.path := by
      obtain ⟨found, hfound, hpending, hothers⟩ := ih hothers hmem
      exact ⟨found, hfound, List.mem_cons_of_mem name hpending, hothers⟩
    split at hadded
    · rename_i hwritten
      obtain ⟨first, hfirst, rfl⟩ := map_eq_ok_iff.mp hadded
      rcases Expression.Clauses.mem_actions_append.mp hmem with hmem | hmem
      · have hname := TypeSchema.name_of_field? (TypeSchema.requireField_eq_ok_iff.mp hfield)
        refine ⟨field, TypeSchema.mem_of_requireField hfield, ?_, ?_, ?_⟩
        · rw [hname]
          exact List.mem_cons_self
        · exact (Bool.and_eq_true_iff.mp hwritten).1
        · exact (editsBelow_clauses mutation hfirst).below action hmem
      · exact hrest hmem
    · cases hadded
      exact hrest hmem

/-- The fields of an object are written apart when each of them is. -/
theorem apart_objectClauses {counters : CounterNames} (hfields : FieldsDistinct counters type.fields)
    (hnames : (Entries.names mutations).Nodup)
    (hparts : ∀ name mutation, (name, mutation) ∈ mutations →
      ∀ field path base part, clauses table field path base mutation = .ok part → part.Apart)
    (hadded : objectClauses table type base path mutations = .ok added) : added.Apart := by
  induction mutations generalizing added with
  | nil =>
    cases hadded
    exact apart_none
  | cons entry rest ih =>
    obtain ⟨name, mutation⟩ := entry
    obtain ⟨hfresh, hnames⟩ := List.nodup_cons.mp hnames
    unfold objectClauses at hadded
    obtain ⟨field, hfield, hadded⟩ := bind_eq_ok_iff.mp hadded
    obtain ⟨others, hothers, hadded⟩ := bind_eq_ok_iff.mp hadded
    have hrest := ih hnames (fun name mutation hmem => hparts name mutation (.tail _ hmem)) hothers
    split at hadded
    · rename_i hwritten
      obtain ⟨first, hfirst, rfl⟩ := map_eq_ok_iff.mp hadded
      refine (hparts name mutation List.mem_cons_self _ _ _ first hfirst).append hrest ?_
      intro action hmem other hother
      obtain ⟨found, hfound, hpending, hpersist, hbelow⟩ := below_objectClauses hothers hother
      have hname := TypeSchema.name_of_field? (TypeSchema.requireField_eq_ok_iff.mp hfield)
      have hwire : field.wireName ≠ found.wireName :=
        hfields.wireName_ne (TypeSchema.mem_of_requireField hfield) hfound
          (Bool.and_eq_true_iff.mp hwritten).1 hpersist
          (hname ▸ (ne_of_mem_of_not_mem hpending hfresh).symm)
      exact not_overlap_of_below hwire ((editsBelow_clauses mutation hfirst).below action hmem) hbelow
    · cases hadded
      exact hrest

/-- The clauses of a pending change act at paths that do not meet. -/
theorem apart_clauses (haccepted : table.Accepted) {mutation : FieldMutation}
    (hdistinct : mutation.Distinct) (field : FieldSchema) (path : List String) (base : Value)
    (added : Clauses) (hadded : mutation.clauses table field path base = .ok added) :
    added.Apart := by
  induction hdistinct generalizing field path base added with
  | scalar delta =>
    unfold clauses at hadded
    split at hadded
    · cases hadded
      exact apart_single rfl
    · split at hadded
      · exact apart_fieldClauses hadded
      · obtain ⟨element, _, hadded⟩ := bind_eq_ok_iff.mp hadded
        split at hadded
        · exact apart_increaseClauses hadded
        · obtain ⟨latest, _, hadded⟩ := bind_eq_ok_iff.mp hadded
          exact apart_fieldClauses hadded
      · cases hadded
        exact apart_none
  | collection keys =>
    unfold clauses at hadded
    split at hadded
    · exact CollectionDelta.apart_clauses keys hadded
    · obtain ⟨element, _, hadded⟩ := bind_eq_ok_iff.mp hadded
      obtain ⟨latest, _, hadded⟩ := bind_eq_ok_iff.mp hadded
      exact apart_fieldClauses hadded
  | object names _ ih =>
    unfold clauses at hadded
    obtain ⟨type, htype, hadded⟩ := bind_eq_ok_iff.mp hadded
    split at hadded
    · obtain ⟨record, _, hadded⟩ := bind_eq_ok_iff.mp hadded
      exact apart_fieldClauses hadded
    · refine apart_objectClauses (haccepted.fields type (TableSchema.mem_of_requireType htype)) names
        (fun name mutation hmem => ?_) hadded
      exact ih name mutation (Entries.find?_of_mem names hmem)

end FieldMutation

end Changes

/-! ### Compiled updates -/

/-- The attributes that no update changes: those of the key, and the version. -/
def TableSchema.fixedAttributes (table : TableSchema) : List String :=
  (KeyNames.ofSchema table.keys).attributes ++ [table.versionAttribute]

section Compiled

open Expression.Clauses (apart_none apart_single eq_of_below not_overlap_of_below)

variable {table : TableSchema}

theorem TableSchema.mem_fixedAttributes {name : String} : name ∈ table.fixedAttributes ↔
    name = table.keys.hash.wireName ∨ (∃ range ∈ table.keys.range, name = range.wireName) ∨
      name = table.versionAttribute := by
  cases hrange : table.keys.range <;>
    simp [fixedAttributes, KeyNames.ofSchema, KeyNames.attributes, hrange]

/-- An attribute that is neither the version nor that of a declared key is not fixed. -/
theorem TableSchema.Accepted.not_fixed (haccepted : table.Accepted) {name : String}
    (hkey : ∀ key : KeyField, key = table.keys.hash ∨ key ∈ table.keys.range →
      key.Declared table.root → name ≠ key.wireName)
    (hversion : name ≠ table.versionAttribute) : name ∉ table.fixedAttributes := by
  rw [mem_fixedAttributes]
  rintro (hhash | ⟨range, hrange, hname⟩ | hname)
  · exact hkey _ (.inl rfl) haccepted.hash hhash
  · exact hkey range (.inr hrange) (haccepted.range range hrange) hname
  · exact hversion hname

/-- A field that is not part of the key has an attribute of its own. -/
theorem TableSchema.Accepted.wireName_not_fixed (haccepted : table.Accepted) {field : FieldSchema}
    (hfield : field ∈ table.root.fields) (hpersist : field.persist = true)
    (hfree : ObjectUpdate.isKey table field.name = false) :
    field.wireName ∉ table.fixedAttributes := by
  have hroot := haccepted.fields table.root (List.mem_of_find?_eq_some haccepted.root_eq)
  refine haccepted.not_fixed ?_ (hroot.reserved field hfield hpersist).1
  rintro key hkey ⟨declared, hdeclared, hwire, hdeclaredPersist, _⟩
  rw [← hwire]
  refine hroot.wireName_ne hfield (List.mem_of_find?_eq_some hdeclared) hpersist hdeclaredPersist ?_
  rw [TypeSchema.name_of_field? hdeclared]
  intro hname
  simp only [ObjectUpdate.isKey, hname, Bool.or_eq_false_iff, decide_eq_false_iff_not] at hfree
  rcases hkey with rfl | hrange
  · exact hfree.1 rfl
  · rw [hrange] at hfree
    simp at hfree

theorem TableSchema.Accepted.revision_not_fixed (haccepted : table.Accepted) :
    table.revisionAttribute ∉ table.fixedAttributes := by
  have hroot := haccepted.fields table.root (List.mem_of_find?_eq_some haccepted.root_eq)
  refine haccepted.not_fixed ?_ haccepted.counters.symm
  rintro key _ ⟨declared, hdeclared, hwire, hpersist, _⟩
  rw [← hwire]
  exact (hroot.reserved declared (List.mem_of_find?_eq_some hdeclared) hpersist).2.symm

theorem ObjectUpdate.adds_compile_root (haccepted : table.Accepted) {update : ObjectUpdate}
    (htype : update.base.typeName = table.rootType) :
    (update.compile table).Adds fun _ added =>
      FieldMutation.objectClauses table table.root update.base [] update.mutations = .ok added := by
  unfold ObjectUpdate.compile
  refine .bind_except fun type hrequired => ?_
  rw [htype, TableSchema.requireType_eq_ok_iff, haccepted.root_eq] at hrequired
  cases hrequired
  exact FieldMutation.adds_compileFields table table.root update.base [] update.mutations

/-- The clauses of pending changes act apart, each below the attribute of a changed field. -/
theorem ObjectUpdate.Tidy.apart_clauses (haccepted : table.Accepted) {update : ObjectUpdate}
    (hupdate : update.Tidy table) (hroot : update.isRoot = true) {added : Clauses}
    (hadded : FieldMutation.objectClauses table table.root update.base [] update.mutations =
      .ok added) :
    added.Apart ∧ ∀ action ∈ added.actions, ∃ name, [name] <+: action.path ∧
      name ∉ table.fixedAttributes ∧ name ≠ table.revisionAttribute := by
  have hfields := haccepted.fields table.root (List.mem_of_find?_eq_some haccepted.root_eq)
  have hnames := hupdate.distinct.names
  constructor
  · refine FieldMutation.apart_objectClauses hfields hnames (fun name mutation hmem => ?_) hadded
    exact FieldMutation.apart_clauses haccepted
      (FieldMutation.Distinct.of_find? hupdate.distinct (Entries.find?_of_mem hnames hmem))
  · intro action hmem
    obtain ⟨field, hfield, hpending, hpersist, hbelow⟩ :=
      FieldMutation.below_objectClauses hadded hmem
    refine ⟨field.wireName, hbelow, haccepted.wireName_not_fixed hfield hpersist ?_,
      (hfields.reserved field hfield hpersist).2⟩
    exact hupdate.free hroot field.name hpending

namespace Update

/-- Of the counters an update changes the revision at most, and that once. -/
theorem adds_counters_apart (table : TableSchema) (observed : Int64) :
    Building.Adds (do
      requireVersion table
      if table.optimisticLocking then advanceRevision table observed) fun _ added =>
      added.actions = [] ∨ ∃ value, added.actions = [.set [table.revisionAttribute] (.value value)] := by
  have htest : Building.Adds (if observed ≠ 0 then
      Builder.requireEqual [table.revisionAttribute] (Codec.revisionAttribute observed)
      else pure ()) fun _ test => test.actions = [] := by
    by_cases hobserved : observed ≠ 0
    · rw [if_pos hobserved]
      refine (Builder.adds_requireEqual (List.cons_ne_nil _ _) _).mono ?_
      rintro _ test rfl
      rfl
    · rw [if_neg hobserved]
      exact .pure rfl
  refine adds_requireVersion.bind fun _ version hversion => ?_
  simp only [Clauses.actions_append_right hversion]
  split
  · refine (Builder.adds_setAttribute (List.cons_ne_nil _ _) _).bind ?_
    rintro _ first rfl
    refine htest.mono fun _ test hnone => .inr ?_
    rw [Clauses.actions_append_left hnone]
    exact ⟨_, rfl⟩
  · exact .pure (.inl rfl)

theorem rootType_of_start {base : Record} {update : Update} (hstart : start table base = .ok update) :
    base.typeName = table.rootType := by
  by_contra hne
  rw [start, if_pos hne] at hstart
  cases hstart

theorem tidy_of_start {base : Record} {update later : Update} {changes : List FieldChange}
    (hstart : start table base = .ok update)
    (hchanges : update.changeAll table changes = .ok later) : later.object.Tidy table := by
  obtain ⟨_, hobject⟩ := start_ok table hstart
  refine changeAll_tidy ?_ hchanges
  rw [hobject]
  exact ⟨FieldMutation.distinct_nil base, fun _ name hmem => absurd hmem List.not_mem_nil⟩

/-- A compiled update is read as the clauses of its pending changes and of its counters. -/
theorem parse_compile {description : TableDescription} {base : Record} {update later : Update}
    {changes : List FieldChange} {compiled : Expression.Compiled} {expression : String}
    (hresolve : description.resolve = .ok table)
    (hstart : start table base = .ok update) (hchanges : update.changeAll table changes = .ok later)
    (hcompile : later.compile table = .ok compiled) (hupdate : compiled.update = some expression) :
    ∃ user added, Action.parse compiled.bindings expression = .ok (user ++ added).actions ∧
      FieldMutation.objectClauses table table.root base [] later.object.mutations = .ok user ∧
      (added.actions = [] ∨ ∃ value, added.actions = [.set [table.revisionAttribute] (.value value)]) ∧
      later.object.Tidy table ∧ ObjectUpdate.AppliesTo base true later.object := by
  have haccepted := TableDescription.accepted_of_resolve hresolve
  obtain ⟨_, hobject⟩ := start_ok table hstart
  have hlater : ObjectUpdate.AppliesTo base true later.object := by
    rw [after_of_changeAll table hchanges]
    refine after_appliesTo table ?_ changes
    rw [hobject]
    exact ⟨rfl, rfl⟩
  have htype : later.object.base.typeName = table.rootType := by
    rw [hlater.1, rootType_of_start hstart]
  obtain ⟨⟨⟨⟩, builder⟩, hrun, hdone⟩ := bind_eq_ok_iff.mp hcompile
  cases hdone
  obtain ⟨user, added, hreads, hadded, huser⟩ :=
    reads_append (ObjectUpdate.adds_compile_root haccepted htype) (adds_counters_apart table _) hrun
      hupdate
  obtain ⟨text, htext, hparse⟩ : ∃ text, builder.compile.update = some text ∧
      Action.parse builder.compile.bindings text = .ok (user ++ added).actions := by
    refine hreads.update fun hnone => ?_
    cases (hreads.update_eq_none hnone).symm.trans hupdate
  cases htext.symm.trans hupdate
  exact ⟨user, added, hparse, hlater.1 ▸ huser, hadded, tidy_of_start hstart hchanges, hlater⟩

/-- The actions of a compiled update have paths of which none begins with another, and none begins
with an attribute of the key or with that of the version. -/
theorem apart_compile {description : TableDescription} {table : TableSchema} {base : Record}
    {update later : Update} {changes : List FieldChange} {compiled : Expression.Compiled}
    {expression : String} (hresolve : description.resolve = .ok table)
    (hstart : start table base = .ok update) (hchanges : update.changeAll table changes = .ok later)
    (hcompile : later.compile table = .ok compiled) (hupdate : compiled.update = some expression) :
    ∃ actions, Action.parse compiled.bindings expression = .ok actions ∧ Expression.Apart actions ∧
      ∀ action ∈ actions, ∀ name ∈ table.fixedAttributes, ¬ [name] <+: action.path := by
  have haccepted := TableDescription.accepted_of_resolve hresolve
  obtain ⟨user, added, hparse, huser, hadded, htidy, hlater⟩ :=
    parse_compile hresolve hstart hchanges hcompile hupdate
  obtain ⟨hapart, huser⟩ := htidy.apart_clauses haccepted hlater.2 (hlater.1.symm ▸ huser)
  have hcounters : added.Apart ∧ added.Below [table.revisionAttribute] := by
    rcases hadded with hnone | ⟨value, hsingle⟩
    · rw [Clauses.Apart, Clauses.Below, hnone]
      exact ⟨List.Pairwise.nil, List.forall_mem_nil _⟩
    · refine ⟨apart_single hsingle, fun action hmem => ?_⟩
      rw [hsingle, List.mem_singleton] at hmem
      rw [hmem]
      exact List.prefix_refl _
  refine ⟨_, hparse, hapart.append hcounters.1 ?_, ?_⟩
  · intro action hmem other hother
    obtain ⟨name, hbelow, _, hne⟩ := huser action hmem
    exact @not_overlap_of_below [] _ _ _ _ hne hbelow (hcounters.2 other hother)
  · intro action hmem fixed hfixed hextends
    rcases Clauses.mem_actions_append.mp hmem with hmem | hmem
    · obtain ⟨name, hbelow, hfree, _⟩ := huser action hmem
      exact hfree (@eq_of_below [] _ _ _ hextends hbelow ▸ hfixed)
    · have hsame : fixed = table.revisionAttribute :=
        @eq_of_below [] _ _ _ hextends (hcounters.2 action hmem)
      exact haccepted.revision_not_fixed (hsame ▸ hfixed)

/-- Hikers, with the heights of the peaks that they climbed and with the hut where they sleep. -/
def hikerDescription : TableDescription where
  name := "hikers"
  namespaceName := ""
  rootType := "Hiker"
  hashKey := "name"
  rangeKey := none
  version := 1
  optimisticLocking := true
  migrations := false
  versionAttribute := none
  revisionAttribute := none
  types := [
    ⟨"Hiker", [
      ⟨"name", none, .scalar, some .string, none, true, true, false, false, false, false, false⟩,
      ⟨"peaks", some "p", .map, some .integer, none, true, true, false, true, false, false, false⟩,
      ⟨"badges", none, .set, some .string, none, true, true, false, true, false, false, false⟩,
      ⟨"hut", some "h", .scalar, some (.object "Hut"), none, true, true, false, false, false, false,
        false⟩]⟩,
    ⟨"Hut", [
      ⟨"nights", some "n", .scalar, some .integer, none, true, true, false, true, false, false, false⟩,
      ⟨"place", none, .scalar, some .string, none, true, true, false, false, false, false, false⟩]⟩]
  indexes := []

def hiker : Record :=
  ⟨"Hiker", [("name", .string "Jane"), ("peaks", .map [("north", .number (.integer 3))]),
    ("badges", .set [.string "red"]), ("hut", .object "Hut" [("place", .string "pass")] 0)], 4⟩

def hikerChanges : List FieldChange := [
  ⟨[], "peaks", .putEntry "south" (.number (.integer 5))⟩,
  ⟨[], "peaks", .incrementEntry "west" (.integer 2)⟩,
  ⟨[], "peaks", .deleteEntry "north"⟩,
  ⟨[], "badges", .deleteElement (.string "red")⟩,
  ⟨["hut"], "nights", .increment (.integer 1)⟩,
  ⟨["hut"], "place", .remove⟩]

theorem apart_compile_hiker : ∃ table update later compiled expression actions,
    hikerDescription.resolve = .ok table ∧ start table hiker = .ok update ∧
    update.changeAll table hikerChanges = .ok later ∧ later.compile table = .ok compiled ∧
    compiled.update = some expression ∧ Action.parse compiled.bindings expression = .ok actions ∧
    Expression.Apart actions ∧
    ∀ action ∈ actions, ∀ name ∈ table.fixedAttributes, ¬ [name] <+: action.path := by
  have hwrites : (hikerDescription.resolve.toOption.bind fun table =>
      (start table hiker).toOption.bind fun update =>
      (update.changeAll table hikerChanges).toOption.bind fun later =>
      (later.compile table).toOption.bind Expression.Compiled.update).isSome = true := by
    decide +kernel
  obtain ⟨expression, hwrites⟩ := Option.isSome_iff_exists.mp hwrites
  simp only [Option.bind_eq_some_iff, toOption_eq_some_iff] at hwrites
  obtain ⟨table, hresolve, update, hstart, later, hchanges, compiled, hcompile, hupdate⟩ := hwrites
  obtain ⟨actions, hparse, hapart⟩ := apart_compile hresolve hstart hchanges hcompile hupdate
  exact ⟨table, update, later, compiled, expression, actions, hresolve, hstart, hchanges, hcompile,
    hupdate, hparse, hapart⟩

end Update

end Compiled

end RecordStore
