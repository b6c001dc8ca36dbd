import RecordStore.Client.Write
import RecordStore.Proofs.Client.Call

/-!
# What writes of clients come to

A write of a client is not sent, is refused by the store, or is made to the table that it names. What
the client answers depends on the store only in the last case, and only there a table changes.
-/

namespace RecordStore

theorem PreparedPut.advance_fields (table : TableSchema) (record : Record) (locking : Bool) :
    (advance table record locking).fields = record.fields := by
  unfold advance
  split <;> rfl

namespace Client

open Expression (Builder)

variable {client : Client} {table : TableSchema} {session last : Session}

/-! ### Puts -/

section Puts

variable {record : Record} {options : SaveOptions} {isMigrated : Bool}

/-- What can come of putting a record. -/
inductive PutEnds (table : TableSchema) (record : Record) (options : SaveOptions)
    (isMigrated : Bool) (store later : Store) : Except Error Record → Prop where
  | unsent {error : Error}
    (hprepare : PreparedPut.prepare table record options isMigrated = .error error)
    (htables : later.tables = store.tables) :
    PutEnds table record options isMigrated store later (.error error)
  | applied {prepared : PreparedPut} {stored left : StoredTable} {old : Option Item}
    (hprepare : PreparedPut.prepare table record options isMigrated = .ok prepared)
    (htable : store.table? table.name = some stored)
    (hput : stored.put prepared.item prepared.compiled.guard.condition
      prepared.compiled.guard.bindings = .ok (.applied (left, old)))
    (htables : later.tables = (store.setTable table.name left).tables) :
    PutEnds table record options isMigrated store later (.ok prepared.record)
  | rejected {prepared : PreparedPut} {stored : StoredTable} {context : RequestContext}
    (hprepare : PreparedPut.prepare table record options isMigrated = .ok prepared)
    (htable : store.table? table.name = some stored)
    (hput : stored.put prepared.item prepared.compiled.guard.condition
      prepared.compiled.guard.bindings = .ok .rejected)
    (htables : later.tables = store.tables) :
    PutEnds table record options isMigrated store later (.error (.writeConflict context))
  | refused {prepared : PreparedPut} {error : Error}
    (hprepare : PreparedPut.prepare table record options isMigrated = .ok prepared)
    (hput : ∀ stored, store.table? table.name = some stored → ∃ fault,
      stored.put prepared.item prepared.compiled.guard.condition
        prepared.compiled.guard.bindings = .error fault)
    (htables : later.tables = store.tables) :
    PutEnds table record options isMigrated store later (.error error)

theorem putEnds_of_run {outcome : Except Error Record}
    (hready : client.Ready ⟨table.name, none, .write⟩ session)
    (hrun : (client.put table record options isMigrated).run.run session = (outcome, last)) :
    PutEnds table record options isMigrated session.store last.store outcome := by
  unfold put at hrun
  cases hprepare : PreparedPut.prepare table record options isMigrated with
  | error error =>
    rw [run_bind_of_error ((run_except _ _).trans (congrArg (·, session) hprepare))] at hrun
    cases hrun
    exact .unsent hprepare rfl
  | ok prepared =>
    rw [run_bind_of_ok ((run_except _ _).trans (congrArg (·, session) hprepare))] at hrun
    obtain ⟨answer, between, hcall, hwrote⟩ := client.wrote_putItem
      ⟨table.name, prepared.item, prepared.compiled.guard, ⟨.nothing, true⟩⟩ hready prepared.key
    cases hwrote with
    | applied htable hstep htables =>
      rw [run_bind_of_ok hcall] at hrun
      cases hrun
      exact .applied hprepare htable hstep htables
    | rejected htable hstep htables =>
      rw [run_bind_of_error hcall] at hrun
      cases hrun
      exact .rejected hprepare htable hstep htables
    | refused _ hstep htables =>
      rw [run_bind_of_error hcall] at hrun
      cases hrun
      exact .refused hprepare hstep htables

end Puts

/-! ### Updates -/

/-- What can come of sending an update. An update that is made is answered by the item that it
leaves. -/
inductive UpdateEnds (table : TableSchema) (update : Update) (store later : Store) :
    Except Error Record → Prop where
  | unmade {outcome : Except Error Record} (htables : later.tables = store.tables) :
    UpdateEnds table update store later outcome
  | applied {builder : Builder} {expression : String} {stored left : StoredTable}
    {updated : StoredTable.Updated}
    (hbuilt : Builder.run "" (update.build table) = .ok ((), builder))
    (hwrites : builder.compile.update = some expression)
    (htable : store.table? table.name = some stored)
    (hupdate : stored.update update.key expression builder.compile.guard.condition
      builder.compile.guard.bindings = .ok (.applied (left, updated)))
    (htables : later.tables = (store.setTable table.name left).tables) :
    UpdateEnds table update store later (Record.ofItem table updated.new)

theorem updateEnds_of_run {update : Update} {outcome : Except Error Record}
    (hready : client.Ready ⟨table.name, none, .write⟩ session)
    (hrun : (client.sendUpdate table update).run.run session = (outcome, last)) :
    UpdateEnds table update session.store last.store outcome := by
  unfold sendUpdate at hrun
  cases hcompile : update.compile table with
  | error error =>
    rw [run_bind_of_error ((run_except _ _).trans (congrArg (·, session) hcompile))] at hrun
    cases hrun
    exact .unmade rfl
  | ok compiled =>
    rw [run_bind_of_ok ((run_except _ _).trans (congrArg (·, session) hcompile))] at hrun
    obtain ⟨⟨⟨⟩, builder⟩, hbuilt, hdone⟩ := bind_eq_ok_iff.mp hcompile
    cases hdone
    cases hwrites : builder.compile.update with
    | none =>
      rw [hwrites] at hrun
      rw [run_except] at hrun
      cases hrun
      exact .unmade rfl
    | some expression =>
      rw [hwrites] at hrun
      obtain ⟨answer, between, hcall, hwrote⟩ := @wrote_updateItem client session
        ⟨table.name, some update.key, some expression, builder.compile.guard, ⟨.new, true⟩⟩
        expression rfl hready update.key
      cases hwrote with
      | applied htable hstep htables =>
        rw [run_bind_of_ok hcall] at hrun
        cases (run_except _ _).symm.trans hrun
        exact .applied hbuilt hwrites htable hstep htables
      | rejected htable hstep htables =>
        rw [run_bind_of_error hcall] at hrun
        cases hrun
        exact .unmade htables
      | refused _ hstep htables =>
        rw [run_bind_of_error hcall] at hrun
        cases hrun
        exact .unmade htables

/-! ### Deletes -/

section Deletes

variable {request : RecordDelete}

/-- The record of an item that was deleted, none when nothing was stored. -/
def deletedRecord (client : Client) (table : TableSchema) :
    Option Item → Except Error (Option Record)
  | none | some [] => .ok none
  | some item => (client.decode table item).map fun loaded => some loaded.record

theorem decode_of_deletedRecord_error {old : Option Item} {error : Error}
    (hread : client.deletedRecord table old = .error error) :
    ∃ item, old = some item ∧ client.decode table item = .error error := by
  rcases old with _ | _ | ⟨entry, rest⟩
  · cases hread
  · cases hread
  · change (client.decode table (entry :: rest)).map _ = _ at hread
    refine ⟨entry :: rest, rfl, ?_⟩
    cases hdecode : client.decode table (entry :: rest) with
    | error refusal =>
      rw [hdecode] at hread
      cases hread
      rfl
    | ok loaded =>
      rw [hdecode] at hread
      cases hread

theorem run_load_unwritten (client : Client) (table : TableSchema) (item : Item)
    (session : Session) : (client.load table false item).run.run session =
      ((client.decode table item).map Loaded.record, session) := by
  unfold load
  cases client.decode table item with
  | error error => exact run_bind_of_error (run_except (.error error) session)
  | ok loaded =>
    rw [run_bind_of_ok (run_except (.ok loaded) session), Bool.and_false, Bool.false_and]
    rfl

/-- What can come of sending a delete. A delete that is made is answered by the item that it
removes. -/
inductive DeleteEnds (client : Client) (request : RecordDelete) (store later : Store) :
    Except Error (Option Record) → Prop where
  | unmade {error : Error} (htables : later.tables = store.tables) :
    DeleteEnds client request store later (.error error)
  | applied {table : TableSchema} {key : Item} {guard : Guard} {stored left : StoredTable}
    {old : Option Item}
    (htable : client.table request.table = .ok table)
    (hprepare : request.prepare table = .ok (key, guard))
    (hstored : store.table? table.name = some stored)
    (hdelete : stored.delete key guard.condition guard.bindings = .ok (.applied (left, old)))
    (htables : later.tables = (store.setTable table.name left).tables) :
    DeleteEnds client request store later (client.deletedRecord table old)

theorem deleteEnds_of_run {outcome : Except Error (Option Record)}
    (hready : ∀ table, client.table request.table = .ok table →
      client.Ready ⟨table.name, none, .write⟩ session)
    (hrun : (client.delete request).run.run session = (outcome, last)) :
    DeleteEnds client request session.store last.store outcome := by
  unfold delete at hrun
  cases htable : client.table request.table with
  | error error =>
    rw [run_bind_of_error ((run_except _ _).trans (congrArg (·, session) htable))] at hrun
    cases hrun
    exact .unmade rfl
  | ok table =>
    rw [run_bind_of_ok ((run_except _ _).trans (congrArg (·, session) htable))] at hrun
    cases hprepare : request.prepare table with
    | error error =>
      rw [run_bind_of_error ((run_except _ _).trans (congrArg (·, session) hprepare))] at hrun
      cases hrun
      exact .unmade rfl
    | ok prepared =>
      obtain ⟨key, guard⟩ := prepared
      rw [run_bind_of_ok ((run_except _ _).trans (congrArg (·, session) hprepare))] at hrun
      obtain ⟨answer, between, hcall, hwrote⟩ := client.wrote_deleteItem
        ⟨table.name, some key, guard, ⟨.old, true⟩⟩ (hready table htable) key
      cases hwrote with
      | rejected _ _ htables =>
        rw [run_bind_of_error hcall] at hrun
        cases hrun
        exact .unmade htables
      | refused _ _ htables =>
        rw [run_bind_of_error hcall] at hrun
        cases hrun
        exact .unmade htables
      | @applied _ _ old hstored hdelete htables =>
        rw [run_bind_of_ok hcall] at hrun
        have hmade := DeleteEnds.applied htable hprepare hstored hdelete htables
        rcases old with _ | _ | ⟨entry, rest⟩
        · cases hrun
          exact hmade
        · cases hrun
          exact hmade
        · -- Reading what was deleted never calls the store.
          have hread : (some <$> client.load table false (entry :: rest)).run.run between =
              ((client.decode table (entry :: rest)).map fun loaded => some loaded.record,
                between) := by
            rw [run_map, run_load_unwritten]
            cases client.decode table (entry :: rest) <;> rfl
          cases hread.symm.trans hrun
          exact hmade

end Deletes

end Client

end RecordStore
