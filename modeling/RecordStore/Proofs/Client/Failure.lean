import RecordStore.Proofs.Client.Write

/-!
# Failed writes

A save that fails has changed nothing. An update or a delete answers the item that the store wrote or
removed, and this item is read only after the write: when it cannot be read the request fails, and
the write stands. No other failed write changes a table.
-/

namespace RecordStore

open Expression (Compiled)

/-- A request to write one item. -/
inductive SingleWrite where
  | save (tableName : String) (record : Record) (options : SaveOptions)
  | update (table : TableSchema) (update : Update)
  | delete (delete : RecordDelete)

namespace SingleWrite

def send (client : Client) : SingleWrite → SessionCall (Option Record)
  | .save tableName record options => some <$> client.save tableName record options
  | .update table pending => some <$> client.sendUpdate table pending
  | .delete request => client.delete request

/-- The write was made and nothing else, but the item that the store answered cannot be read. -/
inductive Unread (client : Client) (store later : Store) (error : Error) : SingleWrite → Prop where
  | updated {table : TableSchema} {update : Update} {compiled : Compiled} {expression : String}
    {stored left : StoredTable} {answer : StoredTable.Updated}
    (hcompile : update.compile table = .ok compiled)
    (hwrites : compiled.update = some expression)
    (hstored : store.table? table.name = some stored)
    (hupdate : stored.update update.key expression compiled.guard.condition
      compiled.guard.bindings = .ok (.applied (left, answer)))
    (hread : Record.ofItem table answer.new = .error error)
    (htables : later.tables = (store.setTable table.name left).tables) :
    Unread client store later error (.update table update)
  | deleted {table : TableSchema} {delete : RecordDelete} {key removed : Item} {guard : Guard}
    {stored left : StoredTable}
    (htable : client.table delete.table = .ok table)
    (hprepare : delete.prepare table = .ok (key, guard))
    (hstored : store.table? table.name = some stored)
    (hdelete : stored.delete key guard.condition guard.bindings =
      .ok (.applied (left, some removed)))
    (hread : client.decode table removed = .error error)
    (htables : later.tables = (store.setTable table.name left).tables) :
    Unread client store later error (.delete delete)

variable {client : Client} {session last : Session} {error : Error}

theorem tables_of_failed_put {table : TableSchema} {record : Record} {options : SaveOptions}
    (hready : client.Ready ⟨table.name, none, .write⟩ session)
    (hrun : (client.put table record options false).run.run session = (.error error, last)) :
    last.store.tables = session.store.tables := by
  cases Client.putEnds_of_run hready hrun with
  | unsent _ htables => exact htables
  | rejected _ _ _ htables => exact htables
  | refused _ _ htables => exact htables

theorem tables_of_failed_save {tableName : String} {record : Record} {options : SaveOptions}
    (hready : ∀ name, client.Ready ⟨name, none, .write⟩ session)
    (hrun : (client.save tableName record options).run.run session = (.error error, last)) :
    last.store.tables = session.store.tables := by
  unfold Client.save at hrun
  cases htable : client.table tableName with
  | error refusal =>
    rw [htable, run_bind_of_error (run_except _ _)] at hrun
    cases hrun
    rfl
  | ok table =>
    rw [htable, run_bind_of_ok (run_except _ _)] at hrun
    exact tables_of_failed_put (hready table.name) hrun

theorem unread_of_failed_update {table : TableSchema} {update : Update}
    (hready : client.Ready ⟨table.name, none, .write⟩ session)
    (hrun : (client.sendUpdate table update).run.run session = (.error error, last)) :
    last.store.tables = session.store.tables ∨
      Unread client session.store last.store error (.update table update) := by
  generalize houtcome : (Except.error error : Except Error Record) = outcome at hrun
  cases Client.updateEnds_of_run hready hrun with
  | unmade htables => exact .inl htables
  | applied hbuilt hwrites htable hupdate htables =>
    have hcompile : update.compile table = .ok _ := bind_eq_ok_iff.mpr ⟨_, hbuilt, rfl⟩
    exact .inr (.updated hcompile hwrites htable hupdate houtcome.symm htables)

theorem unread_of_failed_delete {delete : RecordDelete}
    (hready : ∀ name, client.Ready ⟨name, none, .write⟩ session)
    (hrun : (client.delete delete).run.run session = (.error error, last)) :
    last.store.tables = session.store.tables ∨
      Unread client session.store last.store error (.delete delete) := by
  generalize houtcome : (Except.error error : Except Error (Option Record)) = outcome at hrun
  cases Client.deleteEnds_of_run (fun table _ => hready table.name) hrun with
  | unmade htables => exact .inl htables
  | applied htable hprepare hstored hdelete htables =>
    obtain ⟨removed, rfl, hread⟩ := Client.decode_of_deletedRecord_error houtcome.symm
    exact .inr (.deleted htable hprepare hstored hdelete hread htables)

/-- A write that fails without limits on calls has changed nothing, or it was made and its answer
cannot be read. -/
theorem tables_of_failed_send {request : SingleWrite}
    (hunlimited : client.config.limits.enabled = false)
    (hrun : (request.send client).run.run session = (.error error, last)) :
    last.store.tables = session.store.tables ∨
      request.Unread client session.store last.store error := by
  have hready (name : String) : client.Ready ⟨name, none, .write⟩ session :=
    Client.ready_of_unlimited hunlimited _ session
  cases request with
  | save tableName record options =>
    exact .inl (tables_of_failed_save hready (run_of_map_error hrun))
  | update table update => exact unread_of_failed_update (hready table.name) (run_of_map_error hrun)
  | delete delete => exact unread_of_failed_delete hready hrun

end SingleWrite

/-! ### Writes whose answers cannot be read -/

/-- The description of a stock of articles. -/
def stockDescription : SchemaDescription where
  tables := [{
    name := "stock"
    namespaceName := ""
    rootType := "Article"
    hashKey := "id"
    rangeKey := none
    version := 1
    optimisticLocking := false
    migrations := false
    versionAttribute := none
    revisionAttribute := none
    types := [⟨"Article", [
      ⟨"id", none, .scalar, some .string, none, true, true, false, false, false, false, false⟩,
      ⟨"amount", none, .scalar, some .long, none, true, true, false, false, false, false, false⟩,
      ⟨"note", none, .scalar, some .string, none, true, true, false, false, false, false, false⟩]⟩]
    indexes := [] }]

def stockTable : TableSchema where
  name := "stock"
  namespaceName := ""
  rootType := "Article"
  version := 1
  optimisticLocking := false
  migrationsEnabled := false
  versionAttribute := "_v"
  revisionAttribute := "_rev"
  keys := ⟨⟨"id", "id", .string⟩, none⟩
  indexes := []
  expiryAttribute := none
  types := [⟨"Article", [
    ⟨"id", "id", .scalar .string, none, true, true, false, false, false, false, false⟩,
    ⟨"amount", "amount", .scalar .long, none, true, true, false, false, false, false, false⟩,
    ⟨"note", "note", .scalar .string, none, true, true, false, false, false, false, false⟩]⟩]

def stockClient : Client :=
  ⟨⟨[stockTable], []⟩, default⟩

/-- The stock holds an article at a newer version, and one whose amount is not a number. -/
def stockStore : Store where
  tables := [("stock", ⟨⟨"id", none⟩, [], [[("_v", .number "5"), ("id", .string "a")],
    [("amount", .string "many"), ("id", .string "b")]], 1⟩)]
  calls := []
  unprocessedRounds := 0

namespace SingleWrite

def removeNewer : SingleWrite :=
  .delete ⟨"stock", ⟨.string "a", none⟩, none, none⟩

def noteUncounted : SingleWrite :=
  .update stockTable ⟨[("id", .string "b")], ⟨⟨"Article", [("id", .string "b")], 0⟩, true,
    [("note", .scalar ⟨some (.string "sold"), none, false⟩)]⟩⟩

def sentToStock (request : SingleWrite) : Except Error (Option Record) × Session :=
  (request.send stockClient).run.run (.start stockStore)

/-- The newer article is gone, and the other one has its note, although both requests fail. -/
theorem unread_writes_stand :
    Registry.build stockDescription [] = .ok stockClient.registry ∧
      stockClient.config.limits.enabled = false ∧
      stockStore.items "stock" =
        [[("_v", .number "5"), ("id", .string "a")], [("amount", .string "many"), ("id", .string "b")]] ∧
      removeNewer.sentToStock.1.isOk = false ∧
      removeNewer.sentToStock.2.store.items "stock" =
        [[("amount", .string "many"), ("id", .string "b")]] ∧
      noteUncounted.sentToStock.1.isOk = false ∧
      noteUncounted.sentToStock.2.store.items "stock" =
        [[("_v", .number "5"), ("id", .string "a")],
          [("amount", .string "many"), ("id", .string "b"), ("note", .string "sold")]] := by
  refine ⟨rfl, rfl, rfl, ?_, ?_, ?_, ?_⟩ <;> decide +kernel

/-- The delete of the newer article. -/
theorem tables_of_failed_send_newer :
    stockClient.config.limits.enabled = false ∧
      removeNewer.sentToStock =
        (.error (.unsupportedVersion "stock" 5 1), removeNewer.sentToStock.2) ∧
      removeNewer.Unread stockClient stockStore removeNewer.sentToStock.2.store
        (.unsupportedVersion "stock" 5 1) := by
  have hrun : removeNewer.sentToStock =
      (.error (.unsupportedVersion "stock" 5 1), removeNewer.sentToStock.2) :=
    Prod.ext rfl rfl
  refine ⟨rfl, hrun, (tables_of_failed_send rfl hrun).resolve_left fun htables => ?_⟩
  have hitems : removeNewer.sentToStock.2.store.items "stock" ≠ stockStore.items "stock" := by
    decide +kernel
  exact hitems (by rw [Store.items, Store.table?, htables]; rfl)

end SingleWrite

end RecordStore
