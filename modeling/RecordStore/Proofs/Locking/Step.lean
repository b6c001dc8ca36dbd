import RecordStore.Proofs.Locking.Fence

/-!
# What one write of a read record does

The store applies the request only to an item at the observed revision. What a save or an update
leaves is at the next one, and every other request is a conflict that changes nothing.
-/

namespace RecordStore

open Expression (Action Fault)

/-! ### Writes to a table -/

/-- The table holds the item under a key, at an observed revision. -/
def StoredTable.IsAt (stored : StoredTable) (table : TableSchema) (key : Item)
    (observed : Int64) : Prop :=
  ∃ item, stored.find? key = some item ∧ table.revisionTest observed item = true

/-- What becomes of a table: an item at the next revision takes the place of the one under the key,
or the item under the key is removed. -/
inductive StoredTable.Becomes (table : TableSchema) (key : Item) (observed : Int64)
    (stored : StoredTable) : Bool → StoredTable → Prop where
  | stored {item : Item} (hkey : item.hasKey key = true)
      (hrevision : Item.get? item table.revisionAttribute =
        some (Codec.revisionAttribute (observed + 1))) :
      Becomes table key observed stored false (stored.store key item)
  | erased : Becomes table key observed stored true (stored.erase key)

/-- A write that is rejected unless the table is at the observed revision. -/
structure FencedStep (table : TableSchema) (key : Item) (observed : Int64) (isDelete : Bool)
    (stored : StoredTable) {α : Type} (outcome : Except Fault (Outcome (StoredTable × α))) :
    Prop where
  rejected : ¬ stored.IsAt table key observed → outcome = .ok .rejected
  applied : ∀ later result, outcome = .ok (.applied (later, result)) →
    stored.Becomes table key observed isDelete later

section Steps

variable {table : TableSchema} {observed : Int64} {guard : Guard} {key : Item}
  {stored : StoredTable}

/-- The test of a fenced request fails, or the table is at the observed revision. -/
theorem Guard.Fences.meets_or (hfences : guard.Fences table observed) (stored : StoredTable)
    (key : Item) :
    Expression.meets ((stored.find? key).getD []) guard.condition guard.bindings = .ok false ∨
      (Expression.meets ((stored.find? key).getD []) guard.condition guard.bindings = .ok true ∧
        stored.IsAt table key observed) := by
  obtain ⟨accepted, hmeets, himplies⟩ := hfences ((stored.find? key).getD [])
  cases accepted with
  | false => exact .inl hmeets
  | true =>
    refine .inr ⟨hmeets, ?_⟩
    have htest := himplies rfl
    cases hfind : stored.find? key with
    | none =>
      rw [hfind, Option.getD_none, TableSchema.revisionTest_nil] at htest
      cases htest
    | some item =>
      rw [hfind] at htest
      exact ⟨item, hfind, htest⟩

theorem StoredTable.fencedStep_put {item : Item} (hfences : guard.Fences table observed)
    (hkey : stored.keys.keyOf? item = some key)
    (hrevision : Item.get? item table.revisionAttribute =
      some (Codec.revisionAttribute (observed + 1))) :
    FencedStep table key observed false stored
      (stored.put item guard.condition guard.bindings) := by
  rcases hfences.meets_or stored key with hmeets | ⟨hmeets, hat⟩
  · rw [put_of_meets hkey hmeets]
    refine ⟨fun _ => rfl, fun later result happlied => ?_⟩
    cases happlied
  · rw [put_of_meets hkey hmeets]
    refine ⟨fun hnot => absurd hat hnot, fun later result happlied => ?_⟩
    cases happlied
    exact .stored (KeyNames.hasKey_of_keyOf? hkey) hrevision

theorem StoredTable.fencedStep_delete (hfences : guard.Fences table observed)
    (hkey : stored.exactKey key = .ok key) :
    FencedStep table key observed true stored
      (stored.delete key guard.condition guard.bindings) := by
  rcases hfences.meets_or stored key with hmeets | ⟨hmeets, hat⟩
  · have hdelete : stored.delete key guard.condition guard.bindings = .ok .rejected := by
      unfold delete
      rw [hkey, ok_bind]
      dsimp only
      rw [hmeets]
      rfl
    rw [hdelete]
    refine ⟨fun _ => rfl, fun later result happlied => ?_⟩
    cases happlied
  · have hdelete : stored.delete key guard.condition guard.bindings =
        .ok (.applied (stored.erase key, stored.find? key)) := by
      unfold delete
      rw [hkey, ok_bind]
      dsimp only
      rw [hmeets]
      rfl
    rw [hdelete]
    refine ⟨fun hnot => absurd hat hnot, fun later result happlied => ?_⟩
    cases happlied
    exact .erased

/-- Assigning the revision is the last that happens to it. -/
theorem Expression.get?_of_applyActions {item later : Item} {before after : List Action}
    {name : String} {value : Attribute}
    (happly : Expression.applyActions item (before ++ .set [name] (.value value) :: after) = .ok later)
    (hafter : ∀ action ∈ after, action.path.head? ≠ some name) :
    Item.get? later name = some value := by
  unfold Expression.applyActions at happly
  rw [List.foldlM_append] at happly
  obtain ⟨between, _, hrest⟩ := bind_eq_ok_iff.mp happly
  rw [List.foldlM_cons] at hrest
  obtain ⟨assigned, hassigned, hrest⟩ := bind_eq_ok_iff.mp hrest
  have hset : assigned = Item.set between name value := by
    cases hassigned
    rfl
  rw [Expression.get?_of_applyAll hrest hafter, hset, Item.get?_set_self]

theorem StoredTable.fencedStep_update {expression : String} {actions before after : List Action}
    (hfences : guard.Fences table observed) (hkey : stored.exactKey key = .ok key)
    (hparse : Action.parse guard.bindings expression = .ok actions)
    (hactions : actions = before ++ .set [table.revisionAttribute]
      (.value (Codec.revisionAttribute (observed + 1))) :: after)
    (hafter : ∀ action ∈ after, action.path.head? ≠ some table.revisionAttribute) :
    FencedStep table key observed false stored
      (stored.update key expression guard.condition guard.bindings) := by
  rcases hfences.meets_or stored key with hmeets | ⟨hmeets, hat⟩
  · have hupdate : stored.update key expression guard.condition guard.bindings =
        .ok .rejected := by
      unfold update
      rw [hkey, ok_bind]
      dsimp only
      rw [hmeets]
      rfl
    rw [hupdate]
    refine ⟨fun _ => rfl, fun later result happlied => ?_⟩
    cases happlied
  · refine ⟨fun hnot => absurd hat hnot, fun later result happlied => ?_⟩
    obtain ⟨_, hupdated, hheld, rfl⟩ := update_applied hkey happlied
    obtain ⟨parsed, hparsed, hupdated⟩ := bind_eq_ok_iff.mp hupdated
    rw [hparse] at hparsed
    cases hparsed
    rw [hactions] at hupdated
    exact .stored (KeyNames.hasKey_of_keyOf? hheld) (Expression.get?_of_applyActions hupdated hafter)

end Steps

end RecordStore
