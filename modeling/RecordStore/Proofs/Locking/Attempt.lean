import RecordStore.Proofs.Locking.Step

/-!
# Attempts

An attempt is a request that a client sends for a record that it read. It succeeds only while the
item is at the revision that the client observed.
-/

namespace RecordStore

open Expression (Builder Compiled)

/-- A request for the record under a key, sent with an observed revision that has a next one. -/
structure Attempt (table : TableSchema) (key : Item) where
  write : LockedWrite
  request : ItemWrite
  sent : write.request? table = .ok (some request)
  onKey : table.keyItem write.record = .ok key
  stored : 1 ≤ write.observed
  bounded : write.observed < Int64.maxValue

variable {table : TableSchema} {key : Item}

namespace Attempt

/-- The revision that the client observed. -/
def observed (attempt : Attempt table key) : Int64 :=
  attempt.write.observed

def isDelete (attempt : Attempt table key) : Bool :=
  attempt.write.isDelete

/-- What the store answers, and the store afterwards. -/
def make (attempt : Attempt table key) (store : Store) : Except Error ItemAnswer × Store :=
  attempt.request.perform.run.run store

theorem observed_ne_zero (attempt : Attempt table key) : attempt.observed ≠ 0 := by
  intro hzero
  have hstored : 1 ≤ attempt.observed := attempt.stored
  rw [hzero] at hstored
  exact absurd hstored (by decide)

theorem toInt_next (attempt : Attempt table key) :
    (attempt.observed + 1).toInt = attempt.observed.toInt + 1 := by
  have hlower := Int64.le_iff_toInt_le.mp attempt.stored
  have hupper := Int64.lt_iff_toInt_lt.mp attempt.bounded
  rw [Int64.toInt_one] at hlower
  rw [Int64.toInt_maxValue] at hupper
  change (attempt.write.observed + 1).toInt = attempt.write.observed.toInt + 1
  rw [Int64.toInt_add, Int64.toInt_one]
  exact Int.bmod_eq_of_le (by omega) (by omega)

end Attempt

/-! ### Requests -/

/-- A write to a table that is rejected unless the table is at the observed revision. -/
def ItemWrite.IsFenced (request : ItemWrite) (table : TableSchema) (key : Item) (observed : Int64)
    (isDelete : Bool) : Prop :=
  ∃ (α : Type) (operation : Operation) (context : RequestContext)
    (step : StoredTable → Except Expression.Fault (Outcome (StoredTable × α)))
    (answer : α → ItemAnswer),
    request.perform = Store.conditionalCall operation table.name context step answer ∧
      ∀ stored, stored.keys = .ofSchema table.keys →
        FencedStep table key observed isDelete stored (step stored)

section Requests

variable (haccepted : table.Accepted) (hlocking : table.optimisticLocking = true)
include haccepted hlocking

theorem LockedWrite.isFenced_save {record : Record} {overwrite isMigrated : Bool}
    {request : ItemWrite}
    (hsent : (save record overwrite isMigrated).request? table = .ok (some request))
    (hkey : table.keyItem record = .ok key) (hobserved : record.revision ≠ 0) :
    request.IsFenced table key record.revision false := by
  obtain ⟨prepared, hprepared, hdone⟩ := bind_eq_ok_iff.mp hsent
  cases hdone
  obtain ⟨item, hitem, hprepared⟩ := bind_eq_ok_iff.mp hprepared
  obtain ⟨_, _, hprepared⟩ := bind_eq_ok_iff.mp hprepared
  obtain ⟨⟨⟨⟩, builder⟩, hbuilt, hdone⟩ := bind_eq_ok_iff.mp hprepared
  cases hdone
  obtain ⟨clauses, hasks, hreads⟩ :=
    (PreparedPut.adds_require overwrite isMigrated hlocking hobserved).run_ok hbuilt
  have hadvance : PreparedPut.advance table record true =
      { record with revision := record.revision + 1 } := by
    rw [PreparedPut.advance, hlocking]
    rfl
  rw [hadvance] at hitem
  refine ⟨_, _, _, _, _, Store.putItem_eq _, fun stored hkeys => ?_⟩
  refine StoredTable.fencedStep_put (hreads.fences hasks) ?_ ?_
  · rw [hkeys]
    exact Record.keyOf?_toItem haccepted rfl hitem hkey
  · exact Record.get?_revision_toItem hlocking hitem

theorem LockedWrite.isFenced_update {record : Record} {changes : List FieldChange}
    {request : ItemWrite} (hsent : (update record changes).request? table = .ok (some request))
    (hkey : table.keyItem record = .ok key) (hobserved : record.revision ≠ 0) :
    request.IsFenced table key record.revision false := by
  obtain ⟨started, hstarted, hsent⟩ := bind_eq_ok_iff.mp hsent
  obtain ⟨compiled, hcompiled, hdone⟩ := bind_eq_ok_iff.mp hsent
  obtain ⟨⟨⟨⟩, builder⟩, hbuilt, hcompile⟩ := bind_eq_ok_iff.mp hcompiled
  cases hcompile
  obtain ⟨hstart, hobject⟩ := Update.start_ok table hstarted
  have hbase : (started.after table changes).object.base = record :=
    (Update.after_base table started changes).trans (congrArg ObjectUpdate.base hobject)
  have hupdateKey : (started.after table changes).key = key :=
    (Update.after_key table started changes).trans (Except.ok.inj (hstart.symm.trans hkey))
  cases hwrites : builder.compile.update with
  | none =>
    rw [hwrites] at hdone
    cases hdone
  | some expression =>
    rw [hwrites] at hdone
    cases hdone
    rw [← hbase] at hobserved
    obtain ⟨clauses, hreads, hfenced, before, after, hactions, hafter⟩ :=
      Update.reads_build haccepted hlocking hobserved hbuilt hwrites
    obtain ⟨text, htext, hparse⟩ := hreads.update (by rw [hactions]; simp)
    rw [hwrites] at htext
    cases htext
    rw [hbase] at hfenced hactions
    rw [hupdateKey]
    refine ⟨_, _, _, _, _, @Store.updateItem_eq ⟨table.name, some key, some expression,
      builder.compile.guard, ⟨.new, true⟩⟩ expression rfl, fun stored hkeys => ?_⟩
    obtain ⟨recordKey, _, htoItem⟩ := TableSchema.keyItem_ok hkey
    have hexact := KeySchema.exactKey_eq htoItem hkeys
    exact StoredTable.fencedStep_update (hreads.fences hfenced) hexact hparse hactions hafter

omit haccepted in
theorem LockedWrite.isFenced_delete {record : Record} {condition : Option Condition}
    {request : ItemWrite} (hsent : (delete record condition).request? table = .ok (some request))
    (hkey : table.keyItem record = .ok key) (hobserved : record.revision ≠ 0) :
    request.IsFenced table key record.revision true := by
  obtain ⟨recordKey, hread, htoItem⟩ := TableSchema.keyItem_ok hkey
  obtain ⟨deleted, hdeleted, hsent⟩ := bind_eq_ok_iff.mp hsent
  obtain ⟨⟨other, guard⟩, hprepared, hdone⟩ := bind_eq_ok_iff.mp hsent
  cases hdone
  obtain ⟨readKey, hreadKey, hmade⟩ := bind_eq_ok_iff.mp hdeleted
  cases hmade
  rw [hread] at hreadKey
  cases hreadKey
  obtain ⟨stored, hstored, hprepared⟩ := bind_eq_ok_iff.mp hprepared
  rw [htoItem] at hstored
  cases hstored
  obtain ⟨⟨⟨⟩, builder⟩, hbuilt, hdone⟩ := bind_eq_ok_iff.mp hprepared
  cases hdone
  obtain ⟨clauses, hasks, hreads⟩ :=
    (RecordDelete.adds_require hlocking rfl hobserved).run_ok hbuilt
  refine ⟨_, _, _, _, _, Store.deleteItem_eq _, fun stored hkeys => ?_⟩
  exact StoredTable.fencedStep_delete (hreads.fences hasks) (KeySchema.exactKey_eq htoItem hkeys)

theorem Attempt.isFenced (attempt : Attempt table key) :
    attempt.request.IsFenced table key attempt.observed attempt.isDelete := by
  obtain ⟨write, request, hsent, hkey, hstored, hbounded⟩ := attempt
  have hobserved := Attempt.observed_ne_zero ⟨write, request, hsent, hkey, hstored, hbounded⟩
  cases write with
  | save record overwrite isMigrated =>
    exact LockedWrite.isFenced_save haccepted hlocking hsent hkey hobserved
  | update record changes =>
    exact LockedWrite.isFenced_update haccepted hlocking hsent hkey hobserved
  | delete record condition => exact LockedWrite.isFenced_delete hlocking hsent hkey hobserved

end Requests

end RecordStore
