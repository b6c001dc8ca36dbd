import RecordStore.Proofs.Outcome
import RecordStore.Update.View

/-!
# The record that changes apply to

Changes collect beside the record that they apply to. Whether they succeed or fail, the record stays
as it was read.
-/

namespace RecordStore

namespace ObjectUpdate

/-- The changes apply to a record as it is stored by itself or within another one. -/
def AppliesTo (base : Record) (isRoot : Bool) (update : ObjectUpdate) : Prop :=
  update.base = base ∧ update.isRoot = isRoot

variable (table : TableSchema) (name : String) {base : Record} {isRoot : Bool}

theorem setMutation_preserves (mutation : FieldMutation) :
    Preserves (AppliesTo base isRoot) (setMutation name mutation) :=
  fun _ hupdate => hupdate

theorem fieldOf_preserves : Preserves (AppliesTo base isRoot) (fieldOf table name) := by
  refine .bind .get fun update => .bind (.lift _) fun type => .bind (.lift _) fun field => ?_
  split
  · exact .bind (.throw _) fun _ => .pure _
  · exact .pure _

theorem set_preserves (value : Value) : Preserves (AppliesTo base isRoot) (set table name value) :=
  .bind (fieldOf_preserves table name) fun _ => setMutation_preserves _ _

theorem increment_preserves (amount : Number) :
    Preserves (AppliesTo base isRoot) (increment table name amount) := by
  refine .bind (fieldOf_preserves table name) fun field => .bind (.lift _) fun element => ?_
  split
  · exact .bind (.throw _) fun _ => .bind .get fun update => by
      split
      · exact .bind (.lift _) fun _ => setMutation_preserves _ _
      · exact .bind (.lift _) fun _ => setMutation_preserves _ _
      · exact .throw _
  · refine .bind .get fun update => ?_
    split
    · exact .bind (.lift _) fun _ => setMutation_preserves _ _
    · exact .bind (.lift _) fun _ => setMutation_preserves _ _
    · exact .throw _

theorem changeMutation_preserves (field : FieldSchema) (empty : CollectionDelta)
    (change : CollectionDelta → ElementType → Except Error CollectionDelta) (element : ElementType) :
    Preserves (AppliesTo base isRoot) (do
      match (← MonadState.get).mutation? field.name with
      | none =>
        setMutation field.name (.collection empty)
        setMutation field.name
          (.collection (← (change empty element : Except Error CollectionDelta)))
      | some (.collection delta) =>
        setMutation field.name
          (.collection (← (change delta element : Except Error CollectionDelta)))
      | some (.scalar whole) =>
        let delta ← (change empty element : Except Error CollectionDelta)
        let value ← (delta.merge (whole.set.getD .null) element : Except Error Value)
        setMutation field.name (.scalar (.ofSet value))
      | some (.object ..) => throw (.contract (.notACollection name)) : Updating Unit) := by
  refine .bind .get fun update => ?_
  split
  · exact .bind (setMutation_preserves _ _) fun _ =>
      .bind (.lift _) fun _ => setMutation_preserves _ _
  · exact .bind (.lift _) fun _ => setMutation_preserves _ _
  · exact .bind (.lift _) fun _ => .bind (.lift _) fun _ => setMutation_preserves _ _
  · exact .throw _

theorem changeCollection_preserves (kind : Kind) (empty : CollectionDelta)
    (change : CollectionDelta → ElementType → Except Error CollectionDelta) :
    Preserves (AppliesTo base isRoot) (changeCollection table name kind empty change) := by
  refine .bind (fieldOf_preserves table name) fun field => ?_
  have hchange := @changeMutation_preserves name base isRoot field empty change
  split
  · exact .bind (.throw _) fun _ => .bind (.lift _) hchange
  · exact .bind (.lift _) hchange

theorem changeMap_preserves (change : MapDelta → ElementType → Except Error MapDelta) :
    Preserves (AppliesTo base isRoot) (changeMap table name change) :=
  changeCollection_preserves table name .map _ _

theorem changeSet_preserves (change : SetDelta → SetDelta) :
    Preserves (AppliesTo base isRoot) (changeSet table name change) :=
  changeCollection_preserves table name .set _ _

theorem clear_preserves : Preserves (AppliesTo base isRoot) (clear table name) := by
  refine .bind (fieldOf_preserves table name) fun field => ?_
  split
  · exact setMutation_preserves _ _
  · exact .throw _

theorem enter_preserves : Preserves (AppliesTo base isRoot) (enter table name) := by
  refine .bind (fieldOf_preserves table name) fun field => ?_
  split
  · refine .bind .get fun update => .bind .get fun update => ?_
    split
    · exact .bind (.lift _) fun _ => .bind (setMutation_preserves _ _) fun _ => .pure _
    · exact .pure _
    · exact .throw _
  · exact .throw _

theorem within_preserves {change : Updating Unit} (hchange : Preserves (AppliesTo base isRoot) change)
    (path : List String) : Preserves (AppliesTo base isRoot) (within table path change) := by
  cases path with
  | nil => exact hchange
  | cons name rest =>
    refine .bind (enter_preserves table name) fun nested => ?_
    refine .bind (setMutation_preserves _ _) fun _ => ?_
    split
    · exact .pure _
    · exact .throw _

end ObjectUpdate

open ObjectUpdate (AppliesTo)

variable (table : TableSchema) {base : Record} {isRoot : Bool}

theorem Mutation.make_preserves (name : String) (mutation : Mutation) :
    Preserves (AppliesTo base isRoot) (mutation.make table name) := by
  cases mutation <;> rw [Mutation.make]
  case set value => exact ObjectUpdate.set_preserves table name value
  case remove => exact ObjectUpdate.set_preserves table name .null
  case increment amount => exact ObjectUpdate.increment_preserves table name amount
  case putEntry | incrementEntry | deleteEntry =>
    exact ObjectUpdate.changeMap_preserves table name _
  case addElement | deleteElement => exact ObjectUpdate.changeSet_preserves table name _
  case append => exact ObjectUpdate.changeCollection_preserves table name .list _ _
  case clear => exact ObjectUpdate.clear_preserves table name
  case enter => exact .bind (ObjectUpdate.enter_preserves table name) fun _ => .pure _

theorem FieldChange.make_preserves (change : FieldChange) :
    Preserves (AppliesTo base isRoot) (change.make table) :=
  ObjectUpdate.within_preserves table (change.mutation.make_preserves table change.field) change.path

namespace Update

/-- An update starts at the key of its record, without changes. -/
theorem start_ok {update : Update} (hstart : start table base = .ok update) :
    table.keyItem base = .ok update.key ∧ update.object = ⟨base, true, []⟩ := by
  unfold start at hstart
  by_cases htype : base.typeName ≠ table.rootType
  · rw [if_pos htype] at hstart
    cases hstart
  · rw [if_neg htype] at hstart
    obtain ⟨key, hkey, hstart⟩ := bind_eq_ok_iff.mp hstart
    obtain ⟨_, _, hdone⟩ := bind_eq_ok_iff.mp hstart
    cases hdone
    exact ⟨hkey, rfl⟩

/-- The update with changes made one after another, those that fail leaving what they touched. -/
def after (table : TableSchema) (update : Update) (changes : List FieldChange) : Update :=
  changes.foldl (fun update change => (update.change table change).2) update

theorem after_appliesTo {update : Update} (hupdate : AppliesTo base isRoot update.object)
    (changes : List FieldChange) : AppliesTo base isRoot (update.after table changes).object := by
  induction changes generalizing update with
  | nil => exact hupdate
  | cons change rest ih => exact ih (change.make_preserves table update.object hupdate)

theorem after_base (update : Update) (changes : List FieldChange) :
    (update.after table changes).object.base = update.object.base :=
  (after_appliesTo table ⟨rfl, rfl⟩ changes).1

theorem after_key (update : Update) (changes : List FieldChange) :
    (update.after table changes).key = update.key := by
  induction changes generalizing update with
  | nil => rfl
  | cons change rest ih => exact ih (update.change table change).2

/-- Changes that all succeed lead where any changes lead. -/
theorem after_of_changeAll {update later : Update} {changes : List FieldChange}
    (hchanges : update.changeAll table changes = .ok later) : later = update.after table changes := by
  induction changes generalizing update with
  | nil =>
    cases hchanges
    rfl
  | cons change rest ih =>
    rw [changeAll] at hchanges
    split at hchanges
    · rename_i between hchange
      have hlater := ih hchanges
      rw [hlater, after, after, List.foldl_cons, hchange]
    · cases hchanges

end Update

end RecordStore
