import RecordStore.Proofs.Batch.InTurn
import RecordStore.Proofs.Client.Paging
import RecordStore.Proofs.Migration.WriteBack
import RecordStore.Proofs.Store.Reachable

/-!
# Histories of writes

The writes that a session has made are known from its requests and whether they succeeded. Every
table holds, under each key, the item that was last put under the key and not deleted since.
-/

namespace RecordStore

open Batch (requestsFor)

/-! ### What writes leave -/

/-- Whether a write concerns a key: it puts an item that has the key, or it deletes the key. -/
def BatchEntry.concerns (keys : KeyNames) (key : Item) (entry : BatchEntry) : Bool :=
  match entry.put with
  | some item => keys.keyOf? item = some key
  | none => entry.delete = some key

@[simp] theorem BatchEntry.concerns_put (keys : KeyNames) (key item : Item) :
    concerns keys key ⟨some item, none⟩ = decide (keys.keyOf? item = some key) := rfl

@[simp] theorem BatchEntry.concerns_delete (keys : KeyNames) (key erased : Item) :
    concerns keys key ⟨none, some erased⟩ = decide (erased = key) := by
  simp [concerns]

/-- The item that was last put under a key, none when the key was deleted since. -/
def lastPut (keys : KeyNames) (key : Item) (writes : List BatchEntry) : Option Item :=
  (writes.reverse.find? (BatchEntry.concerns keys key)).bind BatchEntry.put

theorem lastPut_concat (keys : KeyNames) (key : Item) (writes : List BatchEntry)
    (write : BatchEntry) : lastPut keys key (writes ++ [write]) =
      if write.concerns keys key then write.put else lastPut keys key writes := by
  unfold lastPut
  rw [List.reverse_concat, List.find?_cons]
  cases write.concerns keys key <;> rfl

namespace StoredTable

variable {table later : StoredTable} {writes : List BatchEntry} {entry : BatchEntry} {key : Item}

/-- A table holds what some writes have left. -/
structure LeftBy (table : StoredTable) (writes : List BatchEntry) : Prop where
  keyed : table.Keyed
  contents : ∀ key, table.contents key = lastPut table.keys key writes
  items : ∀ item ∈ table.items, ⟨some item, none⟩ ∈ writes

theorem LeftBy.make (hleft : table.LeftBy writes) (hfits : entry.Fits table.keys)
    (hmake : table.make entry = .ok later) : later.LeftBy (writes ++ [entry]) := by
  cases hfits with
  | @put item key hkey =>
    have hput : table.make ⟨some item, none⟩ = .ok (table.store key item) :=
      congrArg (Except.map (Outcome.left table)) (put_whatever hkey)
    cases hput.symm.trans hmake
    refine ⟨hleft.keyed.store hkey, fun other => ?_, fun held hmem => ?_⟩
    · rw [contents_store hkey, lastPut_concat, BatchEntry.concerns_put, keys_store, hkey]
      by_cases hsame : other = key
      · rw [hsame, Function.update_self]
        simp
      · rw [Function.update_of_ne hsame, hleft.contents]
        simp [Ne.symm hsame]
    · rcases mem_replace hmem with rfl | hmem
      · exact List.mem_append_right _ (List.mem_singleton_self _)
      · exact List.mem_append_left _ (hleft.items held hmem)
  | @delete key hkey =>
    have hdelete : table.make ⟨none, some key⟩ = .ok (table.erase key) :=
      congrArg (Except.map (Outcome.left table)) (delete_whatever hkey)
    cases hdelete.symm.trans hmake
    refine ⟨hleft.keyed.erase key, fun other => ?_, fun held hmem => ?_⟩
    · rw [hleft.keyed.contents_erase hkey, lastPut_concat, BatchEntry.concerns_delete, keys_erase]
      by_cases hsame : other = key
      · rw [hsame, Function.update_self]
        simp
      · rw [Function.update_of_ne hsame, hleft.contents]
        simp [Ne.symm hsame]
    · exact List.mem_append_left _ (hleft.items held (List.mem_of_mem_eraseP hmem))

theorem LeftBy.makeAll {more : List BatchEntry} (hleft : table.LeftBy writes)
    (hfits : ∀ entry ∈ more, entry.Fits table.keys) (hmake : more.foldlM StoredTable.make table = .ok later) :
    later.LeftBy (writes ++ more) := by
  induction more generalizing table writes with
  | nil =>
    cases hmake
    rwa [List.append_nil]
  | cons entry rest ih =>
    rw [List.foldlM_cons] at hmake
    obtain ⟨next, hnext, hrest⟩ := bind_eq_ok_iff.mp hmake
    have hmade := ih (hleft.make (hfits entry List.mem_cons_self) hnext)
      (fun other hmem => keys_make hnext ▸ hfits other (List.mem_cons_of_mem _ hmem)) hrest
    rwa [List.append_assoc] at hmade

theorem leftBy_empty (hitems : table.items = []) : table.LeftBy [] := by
  refine ⟨⟨by simp [hitems], by simp [hitems]⟩, fun key => ?_, by simp [hitems]⟩
  rw [contents, hitems]
  rfl

end StoredTable

/-! ### Stores that leave nothing unprocessed -/

namespace Store

/-- No batch call leaves work unprocessed. -/
def Quiet (store : Store) : Prop :=
  store.unprocessedRounds = 0

theorem quiet_write {α : Type} (name : String) (context : RequestContext)
    (step : StoredTable → Except Expression.Fault (Outcome (StoredTable × α))) :
    Preserves Quiet (write name context step) :=
  preserves_write fun _ _ _ _ hquiet _ _ => hquiet

theorem quiet_putItem (request : PutRequest) : Preserves Quiet (putItem request) := by
  rw [putItem_eq]
  exact preserves_conditionalCall (fun _ _ hquiet => hquiet) (quiet_write _ _ _)

theorem quiet_deleteItem (request : DeleteRequest) : Preserves Quiet (deleteItem request) := by
  rw [deleteItem_eq]
  exact preserves_conditionalCall (fun _ _ hquiet => hquiet) (quiet_write _ _ _)

end Store

namespace Client

variable {client : Client}

theorem quiet_of_described {store later : Store} (hdescribed : store.Described later)
    (hquiet : store.Quiet) : later.Quiet :=
  hdescribed.rounds.trans hquiet

theorem quiet_save (name : String) (record : Record) (options : SaveOptions) :
    Preserves (fun session : Session => session.store.Quiet) (client.save name record options) :=
  (Preserves.lift _).bind fun _ => (Preserves.lift _).bind fun _ =>
    (preserves_callWithKey quiet_of_described (Store.quiet_putItem _)).bind fun _ => .pure _

theorem quiet_delete (request : RecordDelete) :
    Preserves (fun session : Session => session.store.Quiet) (client.delete request) := by
  refine (Preserves.lift _).bind fun table => (Preserves.lift _).bind fun _ =>
    (preserves_callWithKey quiet_of_described (Store.quiet_deleteItem _)).bind fun old => ?_
  split
  · exact .pure _
  · exact .pure _
  · refine Preserves.bind (fun session hquiet => ?_) fun _ => .pure _
    rw [run_load_unwritten]
    exact hquiet

end Client

/-! ### Requests that write -/

/-- A request that changes records. -/
inductive RecordChange where
  | save (table : String) (record : Record) (options : SaveOptions)
  | batch (items : List (String × List RecordWrite))
  | delete (request : RecordDelete)

namespace RecordChange

/-- Sends a request and drops what it answers. -/
def send (client : Client) : RecordChange → SessionCall Unit
  | save table record options => do let _ ← client.save table record options
  | batch items => client.batchWrite items
  | delete request => do let _ ← client.delete request

/-- A request as the writes that it asks for, in the order in which they are made. -/
def encode (client : Client) : RecordChange → Except Error (List (String × BatchEntry))
  | save name record options => do
    let table ← client.table name
    return [(name, ⟨some (← (PreparedPut.advance table record options.locking).toItem table), none⟩)]
  | batch items => do return Batch.inTurn (← client.batchEntries items)
  | delete request => do
    let table ← client.table request.table
    return [(request.table, ⟨none, some (← table.keys.toItem request.key)⟩)]

/-- The writes that a request has made. A request that fails has made none, but for a batch, which
keeps those before the first that lacks its key. -/
def made (client : Client) (succeeds : Bool) (change : RecordChange) : List (String × BatchEntry) :=
  let writes := (change.encode client).toOption.getD []
  match change with
  | batch _ => writes.takeWhile fun write => write.2.hasKey (client.keysOf write.1)
  | _ => if succeeds then writes else []

/-- The items that a request puts can be read again. -/
def Decodes (client : Client) (change : RecordChange) : Prop :=
  ∀ writes, change.encode client = .ok writes → ∀ name item, (name, ⟨some item, none⟩) ∈ writes →
    ∀ table, client.table name = .ok table → ∃ record, Record.ofItem table item = .ok record

end RecordChange

namespace Client

variable {client : Client} {units : Int64} {history : List (String × BatchEntry)}
  {session later : Session} {store : Store}

/-- Sessions that requests have made of one with empty tables, with the writes that were made. -/
inductive Reaches (client : Client) (units : Int64) : List (String × BatchEntry) → Session → Prop where
  | start : Reaches client units [] (.start (.empty client.registry units))
  | send {history : List (String × BatchEntry)} {session later : Session}
    {outcome : Except Error Unit} (hreaches : Reaches client units history session)
    (change : RecordChange) (hdecodes : change.Decodes client)
    (hrun : (change.send client).run.run session = (outcome, later)) :
    Reaches client units (history ++ change.made client outcome.isOk) later

/-- The item of a put is what a record of its table is stored as, and it can be read again. -/
def Encoded (client : Client) (write : String × BatchEntry) : Prop :=
  ∀ item, write.2.put = some item → ∃ (table : TableSchema) (record decoded : Record),
    client.table write.1 = .ok table ∧ record.toItem table = .ok item ∧
      Record.ofItem table item = .ok decoded

/-- A store that some writes have made of an empty one. -/
structure Made (client : Client) (units : Int64) (history : List (String × BatchEntry))
    (store : Store) : Prop where
  tables : TablesAfter (fun name => requestsFor name history)
    (Store.empty client.registry units).tables store.tables
  rounds : store.unprocessedRounds = 0
  fits : ∀ write ∈ history, write.2.Fits (client.keysOf write.1)
  encoded : ∀ write ∈ history, client.Encoded write

namespace Made

theorem append {more : List (String × BatchEntry)} {later : Store}
    (hmade : client.Made units history store)
    (htables : TablesAfter (fun name => requestsFor name more) store.tables later.tables)
    (hrounds : later.unprocessedRounds = 0)
    (hfits : ∀ write ∈ more, write.2.Fits (client.keysOf write.1))
    (hencoded : ∀ write ∈ more, client.Encoded write) :
    client.Made units (history ++ more) later where
  tables := by
    have hboth := hmade.tables.trans htables
    simpa only [Batch.requestsFor_append] using hboth
  rounds := hrounds
  fits := fun write hmem => (List.mem_append.mp hmem).elim (hmade.fits write) (hfits write)
  encoded := fun write hmem => (List.mem_append.mp hmem).elim (hmade.encoded write) (hencoded write)

theorem unmade {later : Store} (hmade : client.Made units history store)
    (htables : later.tables = store.tables) (hrounds : later.unprocessedRounds = 0) :
    client.Made units (history ++ []) later :=
  hmade.append (by rw [htables]; exact .refl _) hrounds (by simp) (by simp)

section Tables

variable (htables : Registry.Tables client.registry.tables)
include htables

theorem serves (hmade : client.Made units history store) : store.Serves client.registry := by
  intro table hmem
  obtain ⟨stored, hstored, hkeys⟩ := Store.serves_empty htables units table hmem
  obtain ⟨left, hleft, hsame⟩ := hmade.tables.keys hstored
  exact ⟨left, hleft, hsame.trans hkeys⟩

/-- Every table is what the writes to it have left. -/
theorem exists_leftBy (hmade : client.Made units history store) {name : String}
    {table : TableSchema} (htable : client.table name = .ok table) :
    ∃ stored, store.table? name = some stored ∧ stored.keys = .ofSchema table.keys ∧
      stored.LeftBy (requestsFor name history) := by
  obtain rfl := Registry.name_of_requireTable htable
  have hempty := (Store.holds_empty htables units (Registry.mem_of_requireTable htable)).table?_eq
  have hname := hmade.tables table.name
  rw [← Store.table?, hempty] at hname
  cases hstored : store.table? table.name with
  | none =>
    rw [Store.table?] at hstored
    rw [hstored] at hname
    cases hname
  | some stored =>
    rw [Store.table?] at hstored
    rw [hstored] at hname
    cases hname with
    | some hmake =>
      have hleft := (@StoredTable.leftBy_empty (Store.emptyTable units table) rfl).makeAll
        (fun entry hmem => by
          have hfits := hmade.fits _ (Batch.mem_requestsFor.mp hmem)
          rwa [Client.keysOf_eq htable] at hfits) hmake
      rw [List.nil_append] at hleft
      exact ⟨stored, rfl, StoredTable.keys_makeAll hmake, hleft⟩

/-- Every item of a table is what a record is stored as, and can be read at the version of the
table. -/
theorem current (hmade : client.Made units history store) {name : String} {table : TableSchema}
    {stored : StoredTable} (htable : client.table name = .ok table)
    (hstored : store.table? name = some stored) :
    ∀ item ∈ stored.items, table.Current item ∧ ∃ record : Record, record.toItem table = .ok item := by
  intro item hitem
  obtain ⟨other, hother, _, hleft⟩ := hmade.exists_leftBy htables htable
  cases hstored.symm.trans hother
  obtain ⟨found, record, decoded, hfound, hencode, hdecode⟩ :=
    hmade.encoded _ (Batch.mem_requestsFor.mp (hleft.items item hitem)) item rfl
  cases htable.symm.trans hfound
  have haccepted := htables.accepted table (Registry.mem_of_requireTable htable)
  obtain ⟨version, hversion, hsame⟩ :=
    (TableSchema.storedAt_of_get? (Record.get?_version_toItem haccepted hencode)).storedVersion
  exact ⟨⟨⟨version, hversion, hsame⟩, decoded, hdecode⟩, record, hencode⟩

/-! ### One request -/

theorem save (hmade : client.Made units history session.store) {name : String} {record : Record}
    {options : SaveOptions} {outcome : Except Error Record}
    (hdecodes : (RecordChange.save name record options).Decodes client)
    (hrun : (client.save name record options).run.run session = (outcome, later)) :
    client.Made units (history ++ (RecordChange.save name record options).made client outcome.isOk)
      later.store := by
  have hquiet : later.store.Quiet := by
    have hpreserved := client.quiet_save name record options session hmade.rounds
    rwa [hrun] at hpreserved
  have hfailed : later.store.tables = session.store.tables → outcome.isOk = false →
      client.Made units
        (history ++ (RecordChange.save name record options).made client outcome.isOk) later.store := by
    intro hsame hfailed
    rw [hfailed]
    exact hmade.unmade hsame hquiet
  cases htable : client.table name with
  | error error =>
    have hread := (run_except (client.table name) session).trans (congrArg (·, session) htable)
    rw [Client.save, run_bind_of_error hread] at hrun
    cases hrun
    exact hfailed rfl rfl
  | ok table =>
    obtain ⟨stored, hstored, hkeys, _⟩ := hmade.exists_leftBy htables htable
    have hname := Registry.name_of_requireTable htable
    have hholds : session.store.Holds table stored := ⟨hname ▸ hstored, hkeys⟩
    have haccepted := htables.accepted table (Registry.mem_of_requireTable htable)
    have hread := (run_except (client.table name) session).trans (congrArg (·, session) htable)
    rw [Client.save, run_bind_of_ok hread] at hrun
    have hends := putEnds_of_run (ready_of_table hholds.table?_eq) hrun
    rcases hends.stores haccepted hholds with ⟨hrefused, hsame⟩ | ⟨hok, item, key, hitem, _, hkey, hafter⟩
    · exact hfailed hsame hrefused
    · have hencode : (RecordChange.save name record options).encode client =
          .ok [(name, ⟨some item, none⟩)] := by
        rw [RecordChange.encode, htable, ok_bind, hitem]
        rfl
      have hwrites : (RecordChange.save name record options).made client outcome.isOk =
          [(name, ⟨some item, none⟩)] := by
        rw [hok]
        unfold RecordChange.made
        rw [hencode]
        rfl
      rw [hwrites]
      refine hmade.append ?_ hquiet (fun write hmem => ?_) fun write hmem => ?_
      · rw [hafter, hname]
        exact .single hstored (congrArg (Except.map (Outcome.left stored))
          (StoredTable.put_whatever hkey))
      · cases List.mem_singleton.mp hmem
        rw [Client.keysOf_eq htable, ← hkeys]
        exact .put hkey
      · cases List.mem_singleton.mp hmem
        rintro _ ⟨⟩
        obtain ⟨decoded, hdecoded⟩ := hdecodes _ hencode name item List.mem_cons_self table htable
        exact ⟨table, _, decoded, htable, hitem, hdecoded⟩

theorem delete (hmade : client.Made units history session.store) {request : RecordDelete}
    {outcome : Except Error (Option Record)}
    (hrun : (client.delete request).run.run session = (outcome, later)) :
    client.Made units (history ++ (RecordChange.delete request).made client outcome.isOk)
      later.store := by
  have hquiet : later.store.Quiet := by
    have hpreserved := client.quiet_delete request session hmade.rounds
    rwa [hrun] at hpreserved
  have hready : ∀ table, client.table request.table = .ok table →
      client.Ready ⟨table.name, none, .write⟩ session := by
    intro table htable
    obtain ⟨stored, hstored, _⟩ := hmade.exists_leftBy htables htable
    rw [← Registry.name_of_requireTable htable] at hstored
    exact ready_of_table hstored
  cases deleteEnds_of_run hready hrun with
  | unmade hsame => exact hmade.unmade hsame hquiet
  | @applied table key guard stored left old htable hprepare hstored hdelete hafter =>
    have hname := Registry.name_of_requireTable htable
    rw [hname] at hstored hafter
    obtain ⟨other, hother, hkeys, _⟩ := hmade.exists_leftBy htables htable
    cases hstored.symm.trans hother
    obtain ⟨encoded, hkey, hprepare⟩ := bind_eq_ok_iff.mp hprepare
    obtain ⟨_, _, hdone⟩ := bind_eq_ok_iff.mp hprepare
    cases hdone
    have hwhole : stored.keys.keyOf? key = some key := by
      rw [hkeys]
      exact KeySchema.keyOf?_toItem hkey
    obtain ⟨exact, hexact, hdelete⟩ := bind_eq_ok_iff.mp hdelete
    cases (StoredTable.exactKey_of_keyOf? hwhole).symm.trans hexact
    obtain ⟨accepted, _, hdelete⟩ := bind_eq_ok_iff.mp hdelete
    cases accepted with
    | false => cases hdelete
    | true =>
      cases hdelete
      -- What is deleted can be read, so that the delete succeeds.
      have hok : (client.deletedRecord table (stored.find? key)).isOk = true := by
        cases hread : client.deletedRecord table (stored.find? key) with
        | ok record => rfl
        | error error =>
          obtain ⟨item, hitem, hdecode⟩ := decode_of_deletedRecord_error hread
          obtain ⟨hcurrent, _⟩ := hmade.current htables htable hstored item
            (StoredTable.mem_of_find? hitem)
          obtain ⟨record, hrecord⟩ := hcurrent.reads
          cases hdecode.symm.trans (decode_of_current hcurrent hrecord)
      have hencode : (RecordChange.delete request).encode client =
          .ok [(request.table, ⟨none, some key⟩)] := by
        rw [RecordChange.encode, htable, ok_bind, hkey]
        rfl
      have hwrites : (RecordChange.delete request).made client
          (client.deletedRecord table (stored.find? key)).isOk =
            [(request.table, ⟨none, some key⟩)] := by
        rw [hok]
        unfold RecordChange.made
        rw [hencode]
        rfl
      rw [hwrites]
      refine hmade.append ?_ hquiet (fun write hmem => ?_) fun write hmem => ?_
      · rw [hafter]
        exact .single hstored (congrArg (Except.map (Outcome.left stored))
          (StoredTable.delete_whatever hwhole))
      · cases List.mem_singleton.mp hmem
        rw [Client.keysOf_eq htable, ← hkeys]
        exact .delete hwhole
      · cases List.mem_singleton.mp hmem
        rintro _ ⟨⟩

theorem batchWrite (hmade : client.Made units history session.store)
    {items : List (String × List RecordWrite)} {outcome : Except Error Unit}
    (hdecodes : (RecordChange.batch items).Decodes client)
    (hrun : (client.batchWrite items).run.run session = (outcome, later)) :
    client.Made units (history ++ (RecordChange.batch items).made client outcome.isOk)
      later.store := by
  cases hentries : client.batchEntries items with
  | error error =>
    have hread := (run_except (client.batchEntries items) session).trans
      (congrArg (·, session) hentries)
    rw [Client.batchWrite, run_bind_of_error hread] at hrun
    cases hrun
    have hencode : (RecordChange.batch items).encode client = .error error := by
      rw [RecordChange.encode, hentries]
      rfl
    rw [RecordChange.made, hencode]
    exact hmade.unmade rfl hmade.rounds
  | ok entries =>
    have hencode : (RecordChange.batch items).encode client = .ok (Batch.inTurn entries) := by
      rw [RecordChange.encode, hentries]
      rfl
    obtain ⟨_, _, hsent, hinTurn, hquiet⟩ :=
      madeInTurn_batchWrite (hmade.serves htables) hmade.rounds hentries
    cases hrun.symm.trans hsent
    have hserves := hmade.serves htables
    have hmem : ∀ write ∈ (RecordChange.batch items).made client outcome.isOk,
        write ∈ Batch.inTurn entries ∧ write.2.hasKey (client.keysOf write.1) = true := by
      intro write hwrite
      unfold RecordChange.made at hwrite
      rw [hencode] at hwrite
      exact ⟨(List.takeWhile_prefix _).subset hwrite,
        List.all_eq_true.mp List.all_takeWhile write hwrite⟩
    refine hmade.append ?_ hquiet (fun write hwrite => ?_) fun write hwrite => ?_
    · rw [RecordChange.made, hencode]
      exact hinTurn.tables
    · obtain ⟨hturn, hkey⟩ := hmem write hwrite
      obtain ⟨_, _, hkeys, hasks⟩ :=
        asked_of_batchEntries hserves hentries write (Batch.mem_of_mem_inTurn hturn)
      rw [hkeys] at hasks
      exact hasks.fits hkey
    · obtain ⟨hturn, _⟩ := hmem write hwrite
      obtain ⟨name, entry⟩ := write
      obtain ⟨request, table, htable, hrequest⟩ :=
        exists_encodes hentries _ (Batch.mem_of_mem_inTurn hturn)
      cases request with
      | delete key =>
        obtain ⟨_, _, hdone⟩ := bind_eq_ok_iff.mp hrequest
        cases hdone
        rintro _ ⟨⟩
      | put record =>
        obtain ⟨item, hitem, hdone⟩ := bind_eq_ok_iff.mp hrequest
        cases hdone
        rintro _ ⟨⟩
        obtain ⟨decoded, hdecoded⟩ := hdecodes _ hencode name item hturn table htable
        exact ⟨table, _, decoded, htable, hitem, hdecoded⟩

/-- What a request has made of a store is known from whether it succeeded. -/
theorem send (hmade : client.Made units history session.store) {change : RecordChange}
    {outcome : Except Error Unit} (hdecodes : change.Decodes client)
    (hrun : (change.send client).run.run session = (outcome, later)) :
    client.Made units (history ++ change.made client outcome.isOk) later.store := by
  have hdropped : ∀ {α : Type} {computation : SessionCall α},
      (do let _ ← computation : SessionCall Unit).run.run session = (outcome, later) →
      ∃ answer, computation.run.run session = (answer, later) ∧ answer.isOk = outcome.isOk := by
    intro α computation hrun
    rcases hanswer : computation.run.run session with ⟨error | value, last⟩
    · rw [run_bind_of_error hanswer] at hrun
      cases hrun
      exact ⟨_, rfl, rfl⟩
    · rw [run_bind_of_ok hanswer] at hrun
      cases hrun
      exact ⟨_, rfl, rfl⟩
  cases change with
  | save name record options =>
    obtain ⟨answer, hanswer, hsame⟩ := hdropped hrun
    rw [← hsame]
    exact hmade.save htables hdecodes hanswer
  | batch items => exact hmade.batchWrite htables hdecodes hrun
  | delete request =>
    obtain ⟨answer, hanswer, hsame⟩ := hdropped hrun
    rw [← hsame]
    exact hmade.delete htables hanswer

end Tables

end Made

/-- Whatever was requested, the store is what the writes that were made leave of an empty one. -/
theorem Reaches.made (htables : Registry.Tables client.registry.tables)
    (hreaches : client.Reaches units history session) : client.Made units history session.store := by
  induction hreaches with
  | start => exact ⟨.refl _, rfl, by simp, by simp⟩
  | send _ change hdecodes hrun ih => exact ih.send htables hdecodes hrun

end Client

end RecordStore
