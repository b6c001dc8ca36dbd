import RecordStore.Proofs.Update.Delta
import RecordStore.Proofs.Update.Made

/-!
# Nothing is pending twice

Whatever changes succeed, at most one of them is pending for a field at every depth, at most one
update, one amount and one deletion for a key of a map, and none for the key of a stored record.
-/

namespace RecordStore

/-! ### Keys and names that come once -/

/-- The keys that are written come once, and so do those that are added to and those deleted. -/
structure MapDelta.Distinct (delta : MapDelta) : Prop where
  updates : (Entries.names delta.updates).Nodup
  amounts : (Entries.names delta.amounts).Nodup
  deletes : delta.deletes.Nodup

def CollectionDelta.Distinct : CollectionDelta → Prop
  | .map delta => delta.Distinct
  | .set _ => True
  | .list _ => True

/-- The fields of every nested object come once, and so do the keys of every map. -/
inductive FieldMutation.Distinct : FieldMutation → Prop
  | scalar (delta : ScalarDelta) : Distinct (.scalar delta)
  | collection {delta : CollectionDelta} (keys : delta.Distinct) : Distinct (.collection delta)
  | object {base : Record} {mutations : List (String × FieldMutation)}
    (names : (Entries.names mutations).Nodup)
    (fields : ∀ name mutation, Entries.find? mutations name = some mutation → Distinct mutation) :
    Distinct (.object base mutations)

namespace MapDelta

variable {delta later : MapDelta} {key : String}

theorem distinct_none : MapDelta.none.Distinct :=
  ⟨List.nodup_nil, List.nodup_nil, List.nodup_nil⟩

theorem Distinct.putEntry (hdelta : delta.Distinct) (key : String) (value : Value) :
    (delta.putEntry key value).Distinct where
  updates := Entries.nodup_put hdelta.updates key value
  amounts := Entries.nodup_erase hdelta.amounts key
  deletes := hdelta.deletes.erase key

theorem Distinct.deleteEntry (hdelta : delta.Distinct) (key : String) :
    (delta.deleteEntry key).Distinct where
  updates := Entries.nodup_erase hdelta.updates key
  amounts := Entries.nodup_erase hdelta.amounts key
  deletes := nodup_deletes_deleteEntry hdelta.deletes key

theorem Distinct.incrementEntry {amount : Number} {element : ElementType} (hdelta : delta.Distinct)
    (hlater : delta.incrementEntry key amount element = .ok later) : later.Distinct := by
  unfold MapDelta.incrementEntry at hlater
  split at hlater
  · cases hlater
    exact ⟨Entries.nodup_put hdelta.updates _ _, hdelta.amounts, hdelta.deletes.erase key⟩
  · split at hlater
    · obtain ⟨value, _, hdone⟩ := bind_eq_ok_iff.mp hlater
      cases hdone
      exact ⟨Entries.nodup_put hdelta.updates _ _, hdelta.amounts, hdelta.deletes⟩
    · cases hlater
      exact ⟨hdelta.updates, Entries.nodup_put hdelta.amounts _ _, hdelta.deletes⟩
    · cases hlater
      exact ⟨hdelta.updates, Entries.nodup_put hdelta.amounts _ _, hdelta.deletes⟩

end MapDelta

namespace CollectionDelta

theorem distinct_none? {kind : Kind} {delta : CollectionDelta} (hnone : none? kind = some delta) :
    delta.Distinct := by
  cases kind <;> cases hnone
  · exact MapDelta.distinct_none
  · trivial
  · trivial

theorem Distinct.clearing {delta : CollectionDelta} (hdelta : delta.Distinct) :
    delta.clearing.Distinct := by
  cases delta with
  | map delta => exact ⟨hdelta.updates, hdelta.amounts, hdelta.deletes⟩
  | set delta => trivial
  | list delta => trivial

end CollectionDelta

namespace FieldMutation

variable {base : Record} {mutations : List (String × FieldMutation)} {name : String}
  {mutation : FieldMutation}

theorem distinct_nil (base : Record) : (FieldMutation.object base []).Distinct :=
  .object List.nodup_nil fun _ _ hfind => by cases hfind

theorem Distinct.names (hobject : (FieldMutation.object base mutations).Distinct) :
    (Entries.names mutations).Nodup := by
  cases hobject with
  | object names _ => exact names

theorem Distinct.of_find? (hobject : (FieldMutation.object base mutations).Distinct)
    (hfind : Entries.find? mutations name = some mutation) : mutation.Distinct := by
  cases hobject with
  | object _ fields => exact fields name mutation hfind

theorem Distinct.put (hobject : (FieldMutation.object base mutations).Distinct)
    (hmutation : mutation.Distinct) (name : String) :
    (FieldMutation.object base (Entries.put mutations name mutation)).Distinct := by
  cases hobject with
  | object names fields =>
    refine .object (Entries.nodup_put names name mutation) fun other found hfind => ?_
    rw [Entries.find?_put] at hfind
    split at hfind
    · cases hfind
      exact hmutation
    · exact fields other found hfind

end FieldMutation

/-! ### One more change -/

namespace ObjectUpdate

variable {table : TableSchema} {name : String} {update later : ObjectUpdate}

def Distinct (update : ObjectUpdate) : Prop :=
  (FieldMutation.object update.base update.mutations).Distinct

/-- Something else that comes once is pending for a field, and nothing else changed. -/
def Replaces (name : String) (update later : ObjectUpdate) : Prop :=
  ∃ mutation : FieldMutation, mutation.Distinct ∧ later = update.withMutation name mutation

theorem Replaces.distinct (hreplaces : Replaces name update later) (hupdate : update.Distinct) :
    later.Distinct := by
  obtain ⟨mutation, hmutation, rfl⟩ := hreplaces
  exact FieldMutation.Distinct.put hupdate hmutation name

theorem set_replaces {value : Value}
    (hrun : (set table name value).run.run update = (.ok (), later)) :
    Replaces name update later := by
  obtain ⟨field, hmakes⟩ := set_ok hrun
  exact ⟨_, .scalar _, hmakes.later⟩

theorem increment_replaces {amount : Number}
    (hrun : (increment table name amount).run.run update = (.ok (), later)) :
    Replaces name update later := by
  obtain ⟨field, element, before, after, hmakes, _⟩ := increment_ok hrun
  exact ⟨_, .scalar after, hmakes.later⟩

theorem changeCollection_replaces {kind : Kind} {empty : CollectionDelta}
    {change : CollectionDelta → ElementType → Except Error CollectionDelta}
    (hupdate : update.Distinct) (hempty : empty.Distinct)
    (hchange : ∀ delta element after, CollectionDelta.Distinct delta →
      change delta element = .ok after → after.Distinct)
    (hrun : (changeCollection table name kind empty change).run.run update = (.ok (), later)) :
    Replaces name update later := by
  obtain ⟨field, element, _, ⟨before, after, hmakes, hpending, hafter⟩ |
    ⟨whole, delta, value, hmakes, _⟩⟩ := changeCollection_ok hrun
  · have hbefore : before.Distinct := by
      rcases hpending with ⟨_, rfl⟩ | hpending
      · exact hempty
      · cases FieldMutation.Distinct.of_find? hupdate hpending with
        | collection keys => exact keys
    exact ⟨_, .collection (hchange before element after hbefore hafter), hmakes.later⟩
  · exact ⟨_, .scalar _, hmakes.later⟩

theorem changeMap_replaces {change : MapDelta → ElementType → Except Error MapDelta}
    (hupdate : update.Distinct)
    (hchange : ∀ delta element after, MapDelta.Distinct delta → change delta element = .ok after →
      after.Distinct)
    (hrun : (changeMap table name change).run.run update = (.ok (), later)) :
    Replaces name update later := by
  refine changeCollection_replaces hupdate ?_ ?_ hrun
  · exact MapDelta.distinct_none
  intro delta element after hdelta hafter
  cases delta with
  | map delta =>
    obtain ⟨changed, hchanged, rfl⟩ := map_eq_ok_iff.mp hafter
    exact hchange delta element changed hdelta hchanged
  | set delta | list delta =>
    cases hafter
    exact hdelta

theorem changeSet_replaces {change : SetDelta → SetDelta} (hupdate : update.Distinct)
    (hrun : (changeSet table name change).run.run update = (.ok (), later)) :
    Replaces name update later := by
  refine changeCollection_replaces hupdate ?_ ?_ hrun
  · trivial
  intro delta element after hdelta hafter
  cases delta <;> cases hafter <;> exact hdelta

theorem append_replaces {values : List Value} (hupdate : update.Distinct)
    (hrun : (append table name values).run.run update = (.ok (), later)) :
    Replaces name update later := by
  refine changeCollection_replaces hupdate ?_ ?_ hrun
  · trivial
  intro delta element after hdelta hafter
  cases delta <;> cases hafter <;> exact hdelta

theorem clear_replaces (hrun : (clear table name).run.run update = (.ok (), later)) :
    Replaces name update later := by
  obtain ⟨field, delta, hmakes, hnone⟩ := clear_ok hrun
  exact ⟨_, .collection (CollectionDelta.distinct_none? hnone).clearing, hmakes.later⟩

theorem enter_replaces {nested : ObjectUpdate} (hupdate : update.Distinct)
    (hrun : (enter table name).run.run update = (.ok nested, later)) :
    nested.Distinct ∧ Replaces name update later := by
  obtain ⟨field, typeName, _, _, hlater, hpending⟩ := enter_ok hrun
  have hnested : nested.Distinct := by
    rcases hpending with ⟨_, _, hnil⟩ | hpending
    · rw [Distinct, hnil]
      exact FieldMutation.distinct_nil _
    · exact FieldMutation.Distinct.of_find? hupdate hpending
  exact ⟨hnested, _, hnested, hlater⟩

/-- A change below an object replaces what is pending for the field that its path begins with. -/
theorem within_replaces {change : Updating Unit} {target : String} {path : List String}
    (hchange : ∀ {update later : ObjectUpdate}, update.Distinct →
      change.run.run update = (.ok (), later) → Replaces target update later)
    (hupdate : update.Distinct)
    (hrun : (within table path change).run.run update = (.ok (), later)) :
    Replaces (path.headD target) update later := by
  induction path generalizing update later with
  | nil => exact hchange hupdate hrun
  | cons name rest ih =>
    obtain ⟨nested, between, nestedLater, henter, hwithin, rfl⟩ := within_ok hrun
    obtain ⟨hnested, mutation, _, rfl⟩ := enter_replaces hupdate henter
    refine ⟨_, (ih hnested hwithin).distinct hnested, ?_⟩
    rw [withMutation, withMutation, Entries.put_put]
    rfl

/-- A field that may change is not one of the keys of a stored record. -/
theorem isKey_eq_false_of_fieldOf {α : Type} {next : FieldSchema → Updating α} {result : α}
    (hrun : (fieldOf table name >>= next).run.run update = (.ok result, later))
    (hroot : update.isRoot = true) : isKey table name = false := by
  obtain ⟨field, between, hfield, _⟩ := run_bind_ok hrun
  obtain ⟨type, _, hfield⟩ := run_except_bind_ok (run_get_bind_ok hfield)
  obtain ⟨found, hfound, hfield⟩ := run_except_bind_ok hfield
  have hname := TypeSchema.name_of_field? (TypeSchema.requireField_eq_ok_iff.mp hfound)
  rw [hroot, Bool.true_and, hname] at hfield
  by_contra hkey
  rw [Bool.not_eq_false] at hkey
  rw [hkey] at hfield
  cases hfield

end ObjectUpdate

open ObjectUpdate (Replaces)

variable {table : TableSchema} {update later : ObjectUpdate}

theorem Mutation.make_replaces {name : String} {mutation : Mutation} (hupdate : update.Distinct)
    (hrun : (mutation.make table name).run.run update = (.ok (), later)) :
    Replaces name update later := by
  cases mutation <;> rw [Mutation.make] at hrun
  case set value => exact ObjectUpdate.set_replaces hrun
  case remove => exact ObjectUpdate.set_replaces hrun
  case increment amount => exact ObjectUpdate.increment_replaces hrun
  case putEntry key value =>
    refine ObjectUpdate.changeMap_replaces hupdate ?_ hrun
    rintro delta element after hdelta ⟨⟩
    exact hdelta.putEntry key value
  case incrementEntry key amount =>
    refine ObjectUpdate.changeMap_replaces hupdate ?_ hrun
    intro delta element after hdelta hafter
    split at hafter
    · exact hdelta.incrementEntry hafter
    · cases hafter
  case deleteEntry key =>
    refine ObjectUpdate.changeMap_replaces hupdate ?_ hrun
    rintro delta element after hdelta ⟨⟩
    exact hdelta.deleteEntry key
  case addElement value => exact ObjectUpdate.changeSet_replaces hupdate hrun
  case deleteElement value => exact ObjectUpdate.changeSet_replaces hupdate hrun
  case append values => exact ObjectUpdate.append_replaces hupdate hrun
  case clear => exact ObjectUpdate.clear_replaces hrun
  case enter =>
    obtain ⟨nested, between, henter, hdone⟩ := run_bind_ok hrun
    obtain ⟨_, rfl⟩ := run_pure_ok hdone
    exact (ObjectUpdate.enter_replaces hupdate henter).2

theorem Mutation.isKey_eq_false_of_make {name : String} {mutation : Mutation}
    (hrun : (mutation.make table name).run.run update = (.ok (), later))
    (hroot : update.isRoot = true) : ObjectUpdate.isKey table name = false := by
  cases mutation <;> rw [Mutation.make] at hrun
  case enter =>
    obtain ⟨nested, between, henter, _⟩ := run_bind_ok hrun
    exact ObjectUpdate.isKey_eq_false_of_fieldOf henter hroot
  all_goals exact ObjectUpdate.isKey_eq_false_of_fieldOf hrun hroot

/-! ### Runs of changes -/

/-- Nothing is pending twice, and nothing for the key of a stored record. -/
structure ObjectUpdate.Tidy (table : TableSchema) (update : ObjectUpdate) : Prop where
  distinct : update.Distinct
  free : update.isRoot = true → ∀ name ∈ Entries.names update.mutations,
    ObjectUpdate.isKey table name = false

theorem FieldChange.make_tidy {change : FieldChange} (hupdate : update.Tidy table)
    (hrun : (change.make table).run.run update = (.ok (), later)) : later.Tidy table := by
  have hreplaces : Replaces (change.path.headD change.field) update later :=
    ObjectUpdate.within_replaces Mutation.make_replaces hupdate.distinct hrun
  have hallowed : update.isRoot = true →
      ObjectUpdate.isKey table (change.path.headD change.field) = false := by
    intro hroot
    obtain ⟨path, field, mutation⟩ := change
    cases path with
    | nil => exact mutation.isKey_eq_false_of_make hrun hroot
    | cons name rest =>
      obtain ⟨nested, between, nestedLater, henter, _⟩ := ObjectUpdate.within_ok hrun
      exact ObjectUpdate.isKey_eq_false_of_fieldOf henter hroot
  refine ⟨hreplaces.distinct hupdate.distinct, ?_⟩
  obtain ⟨pending, _, rfl⟩ := hreplaces
  intro hroot name hmem
  rcases Entries.mem_names_put.mp hmem with rfl | hmem
  · exact hallowed hroot
  · exact hupdate.free hroot name hmem

theorem Update.changeAll_tidy {update later : Update} {changes : List FieldChange}
    (hupdate : update.object.Tidy table) (hchanges : update.changeAll table changes = .ok later) :
    later.object.Tidy table := by
  induction changes generalizing update with
  | nil =>
    cases hchanges
    exact hupdate
  | cons change rest ih =>
    rw [changeAll] at hchanges
    split at hchanges
    · rename_i between hchange
      refine ih ?_ hchanges
      unfold Update.change at hchange
      rcases hrun : (change.make table).run.run update.object with ⟨outcome, object⟩
      rw [hrun] at hchange
      cases hchange
      exact change.make_tidy hupdate hrun
    · cases hchanges

end RecordStore
