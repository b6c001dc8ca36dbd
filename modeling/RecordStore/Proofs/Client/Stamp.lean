import RecordStore.Proofs.Batch.InTurn
import RecordStore.Proofs.Client.Failure
import RecordStore.Proofs.Client.Transaction
import RecordStore.Proofs.Migration.WriteBack
import RecordStore.Proofs.Store.KeyedWrite
import RecordStore.Proofs.Store.Writing

/-!
# The version of stored items

What clients save is stamped with the version of its table, and an update leaves the version of the
item that it finds. On a table that migrates an update is made only to an item at the version. On any
other table it is also made where nothing is stored, and the item that it begins has no version.
-/

namespace RecordStore

open Expression (Builder)

variable {table : TableSchema} {item : Item} {stored later : StoredTable}

/-! ### Items -/

/-- What clients leave in a table: items at its version and, where nothing is migrated, items without
one. -/
inductive TableSchema.Admits (table : TableSchema) (item : Item) : Prop where
  | stamped (hversion : Item.get? item table.versionAttribute =
      some (Codec.versionAttribute table.version)) : Admits table item
  | unversioned (hdisabled : table.migrationsEnabled = false)
      (hnone : Item.get? item table.versionAttribute = none) : Admits table item

theorem TableSchema.Admits.congr {other : Item} (hadmits : table.Admits other)
    (hsame : Item.get? item table.versionAttribute = Item.get? other table.versionAttribute) :
    table.Admits item := by
  cases hadmits with
  | stamped hversion => exact .stamped (hsame.trans hversion)
  | unversioned hdisabled hnone => exact .unversioned hdisabled (hsame.trans hnone)

/-- No component of a key is stored in the place of the version. -/
theorem TableSchema.Accepted.version_not_mem (haccepted : table.Accepted) :
    table.versionAttribute ∉ (KeyNames.ofSchema table.keys).attributes := by
  have hdeclared : ∀ component : KeyField, component.Declared table.root →
      table.versionAttribute ≠ component.wireName := by
    rintro component ⟨field, hfield, hwire, hpersist, _⟩
    rw [← hwire]
    exact (haccepted.not_reserved (List.mem_of_find?_eq_some hfield) hpersist).1
  intro hmem
  rcases List.mem_cons.mp hmem with hhash | hrange
  · exact hdeclared _ haccepted.hash hhash
  · obtain ⟨component, hcomponent, hname⟩ := Option.map_eq_some_iff.mp (Option.mem_toList.mp hrange)
    exact hdeclared component (haccepted.range component hcomponent) hname.symm

/-- What an update leaves is admitted where all that it may find is. -/
theorem Update.admits_update {update : Update} {builder : Builder} {expression : String}
    {updated : StoredTable.Updated} {key : Item} (haccepted : table.Accepted)
    (hrun : Builder.run "" (update.build table) = .ok ((), builder))
    (hwrites : builder.compile.update = some expression)
    (hkeys : stored.keys = .ofSchema table.keys)
    (hadmits : ∀ item ∈ stored.items, table.Admits item)
    (hupdate : stored.update key expression builder.compile.guard.condition
      builder.compile.guard.bindings = .ok (.applied (later, updated))) :
    table.Admits updated.new := by
  obtain ⟨clauses, hreads, hcurrent, hactions⟩ := reads_current haccepted hrun hwrites
  obtain ⟨exact, hexact, hmeets, happly, _⟩ := StoredTable.exists_update_applied hupdate
  have hversion := get?_version_applyUpdate hreads hactions hwrites happly
  cases hfind : stored.find? exact with
  | some held =>
    rw [hfind] at hversion
    exact (hadmits held (StoredTable.mem_of_find? hfind)).congr hversion
  | none =>
    rw [hfind] at hmeets hversion
    cases henabled : table.migrationsEnabled with
    | true =>
      -- A missing item is at no version.
      have haccepts := (hreads.meets []).symm.trans hmeets
      have htest := List.all_eq_true.mp (Except.ok.inj haccepts) _ (hcurrent henabled)
      rw [TableSchema.currentTest_nil] at htest
      cases htest
    | false =>
      refine .unversioned henabled (hversion.trans ?_)
      have hwhole := StoredTable.exactKey_ok hexact
      rw [hkeys] at hwhole
      exact KeyNames.get?_keyOf?_of_not_mem hwhole haccepted.version_not_mem

/-! ### Stores -/

/-- The store keeps every table of the registry, with items that the table admits. -/
def Store.Admitted (registry : Registry) (store : Store) : Prop :=
  ∀ table ∈ registry.tables, ∃ stored, store.Holds table stored ∧
    ∀ item ∈ stored.items, table.Admits item

namespace Store

variable {registry : Registry} {store last : Store} {name : String} {context : RequestContext}

theorem Admitted.of_tables_eq (hadmitted : store.Admitted registry)
    (htables : last.tables = store.tables) : last.Admitted registry := by
  intro table hmem
  obtain ⟨stored, hholds, hitems⟩ := hadmitted table hmem
  exact ⟨stored, hholds.of_tables_eq htables, hitems⟩

theorem admitted_of_described (hdescribed : store.Described last)
    (hadmitted : store.Admitted registry) : last.Admitted registry :=
  hadmitted.of_tables_eq hdescribed.tables

theorem admitted_recorded (store : Store) (calls : List Call)
    (hadmitted : store.Admitted registry) : Admitted registry { store with calls } :=
  hadmitted.of_tables_eq rfl

theorem admitted_takeUnprocessedRound : Preserves (Admitted registry) takeUnprocessedRound :=
  preserves_takeUnprocessedRound fun _ _ hadmitted => hadmitted.of_tables_eq rfl

theorem admitted_empty (htables : Registry.Tables registry.tables) (units : Int64) :
    (empty registry units).Admitted registry := by
  intro table hmem
  exact ⟨emptyTable units table, holds_empty htables units hmem, by simp [emptyTable]⟩

/-- A step that leaves what the tables of its name admit keeps a store admitted. -/
theorem admitted_describes {α : Type} {write : KeyedWrite}
    {rebinding : StoredTable → α → Rebinding}
    {step : StoredTable → Except Expression.Fault (Outcome (StoredTable × α))}
    (hdescribes : write.Describes rebinding step)
    (hleft : ∀ table ∈ registry.tables, table.name = name → ∀ stored later result,
      stored.keys = .ofSchema table.keys → (∀ item ∈ stored.items, table.Admits item) →
      step stored = .ok (.applied (later, result)) → ∀ item,
      (rebinding stored result).left = some item → table.Admits item) :
    Preserves (Admitted registry) (Store.write name context step) := by
  apply preserves_write
  intro store held later result hadmitted hheld hstep table hmem
  obtain ⟨stored, hholds, hitems⟩ := hadmitted table hmem
  by_cases hname : table.name = name
  · subst hname
    obtain rfl := Option.some.inj (hholds.table?_eq.symm.trans hheld)
    have hadmits := hleft table hmem rfl stored later result hholds.keys_eq hitems hstep
    obtain ⟨key, rfl⟩ := hdescribes.exists_bind hstep
    refine ⟨_, hholds.of_setTable rfl (StoredTable.keys_bind _ _ _), fun item hitem => ?_⟩
    rcases StoredTable.mem_bind hitem with hnew | hold
    · exact hadmits item hnew
    · exact hitems item hold
  · exact ⟨stored, ⟨(table?_setTable_of_ne store later hname).trans hholds.table?_eq,
      hholds.keys_eq⟩, hitems⟩

theorem admitted_put {item : Item} {condition : Option String} {bindings : Expression.Bindings}
    (hitem : ∀ table ∈ registry.tables, table.name = name → table.Admits item) :
    Preserves (Admitted registry)
      (Store.write name context fun table => table.put item condition bindings) := by
  have hdescribes : (KeyedWrite.put name context item condition bindings).Describes _ _ :=
    describes_put item
  refine admitted_describes hdescribes fun table hmem hname _ _ _ _ _ _ other hother => ?_
  cases hother
  exact hitem table hmem hname

theorem admitted_delete {key : Item} {condition : Option String} {bindings : Expression.Bindings} :
    Preserves (Admitted registry)
      (Store.write name context fun table => table.delete key condition bindings) := by
  have hdescribes : (KeyedWrite.delete name context key condition bindings).Describes _ _ :=
    describes_delete key
  exact admitted_describes hdescribes fun _ _ _ _ _ _ _ _ _ other hother => nomatch hother

theorem admitted_check {key : Item} {condition : String} {bindings : Expression.Bindings} :
    Preserves (Admitted registry)
      (Store.write name context fun table => table.check key condition bindings) := by
  have hdescribes : (KeyedWrite.check name context key condition bindings).Describes _ _ :=
    describes_check key condition
  refine admitted_describes hdescribes fun _ _ _ stored _ _ _ hitems _ other hother => ?_
  obtain ⟨exact, _, hfound⟩ := Option.bind_eq_some_iff.mp hother
  exact hitems other (StoredTable.mem_of_find? hfound)

theorem admitted_update {table : TableSchema} {update : Update} {builder : Builder}
    {expression : String} {key : Item} (htables : Registry.Tables registry.tables)
    (htable : registry.requireTable table.name = .ok table)
    (hrun : Builder.run "" (update.build table) = .ok ((), builder))
    (hwrites : builder.compile.update = some expression) :
    Preserves (Admitted registry) (Store.write table.name context fun stored =>
      stored.update key expression builder.compile.guard.condition
        builder.compile.guard.bindings) := by
  have hdescribes : (KeyedWrite.update table.name context key expression
      builder.compile.guard.condition builder.compile.guard.bindings).Describes _ _ :=
    describes_update key expression
  refine admitted_describes hdescribes fun other hmem hname _ _ _ hkeys hitems hstep item hitem => ?_
  have hother := htables.requireTable_of_mem hmem
  rw [hname] at hother
  cases htable.symm.trans hother
  cases hitem
  exact Update.admits_update (htables.accepted table hmem) hrun hwrites hkeys hitems hstep

end Store

/-! ### Requests -/

/-- A request that changes items of some tables. -/
inductive WriteRequest where
  | single (request : SingleWrite)
  | batch (items : List (String × List RecordWrite))
  | transact (writes : List TransactWrite)

namespace WriteRequest

/-- Sends a request and drops what it answers. -/
def send (client : Client) : WriteRequest → SessionCall Unit
  | single request => do let _ ← request.send client
  | batch items => client.batchWrite items
  | transact writes => do let _ ← client.transactWrite writes

/-- The updates of a request are of tables of the registry. -/
def Registered (registry : Registry) : WriteRequest → Prop
  | single (.update table _) => registry.requireTable table.name = .ok table
  | transact writes => ∀ table update, .update table update ∈ writes →
      registry.requireTable table.name = .ok table
  | _ => True

end WriteRequest

namespace Client

open Batch (byTable chunks)

variable {client : Client} {table : TableSchema} {name : String}

theorem admits_prepared {record : Record} {options : SaveOptions} {isMigrated : Bool}
    {prepared : PreparedPut} (htables : Registry.Tables client.registry.tables)
    (htable : client.table name = .ok table)
    (hprepare : PreparedPut.prepare table record options isMigrated = .ok prepared) :
    ∀ other ∈ client.registry.tables, other.name = table.name → other.Admits prepared.item := by
  intro other hmem hname
  obtain rfl := Registry.name_of_requireTable htable
  have hother := htables.requireTable_of_mem hmem
  rw [hname] at hother
  cases htable.symm.trans hother
  obtain ⟨_, _, hversion, _⟩ :=
    PreparedPut.prepare_ok (htables.accepted table hmem) hprepare
  exact .stamped hversion

section Requests

variable (htables : Registry.Tables client.registry.tables)
include htables

theorem admitted_save (record : Record) (options : SaveOptions) :
    Preserves (fun session : Session => session.store.Admitted client.registry)
      (client.save name record options) := by
  unfold save
  refine (Yields.lift fun _ htable => htable).bind_preserves fun table htable => ?_
  unfold put
  refine (Yields.lift fun _ hprepare => hprepare).bind_preserves fun prepared hprepare => ?_
  refine (preserves_callWithKey Store.admitted_of_described ?_).bind fun _ => .pure _
  rw [Store.putItem_eq]
  exact Store.preserves_conditionalCall Store.admitted_recorded
    (Store.admitted_put (admits_prepared htables htable hprepare))

theorem admitted_sendUpdate {update : Update} (htable : client.table table.name = .ok table) :
    Preserves (fun session : Session => session.store.Admitted client.registry)
      (client.sendUpdate table update) := by
  unfold sendUpdate
  refine (Yields.lift fun _ hcompile => hcompile).bind_preserves fun compiled hcompile => ?_
  obtain ⟨⟨⟨⟩, builder⟩, hbuilt, hdone⟩ := bind_eq_ok_iff.mp hcompile
  cases hdone
  cases hwrites : builder.compile.update with
  | none => exact .lift _
  | some expression =>
    refine (preserves_callWithKey Store.admitted_of_described ?_).bind fun stored => ?_
    · rw [Store.updateItem_eq rfl]
      exact Store.preserves_conditionalCall Store.admitted_recorded
        (Store.admitted_update htables htable hbuilt hwrites)
    · cases stored with
      | none => exact .lift _
      | some item => exact .lift _

omit htables in
theorem admitted_delete (request : RecordDelete) :
    Preserves (fun session : Session => session.store.Admitted client.registry)
      (client.delete request) := by
  unfold delete
  refine (Preserves.lift _).bind fun table => (Preserves.lift _).bind fun prepared => ?_
  obtain ⟨key, guard⟩ := prepared
  refine (preserves_callWithKey Store.admitted_of_described ?_).bind fun old => ?_
  · rw [Store.deleteItem_eq]
    exact Store.preserves_conditionalCall Store.admitted_recorded Store.admitted_delete
  · split
    · exact .pure _
    · exact .pure _
    · refine Preserves.bind (fun session hadmitted => ?_) fun _ => .pure _
      rw [run_load_unwritten]
      exact hadmitted

/-- Every put of an encoded batch is admitted by its table. -/
theorem admits_batchEntries {items : List (String × List RecordWrite)}
    {entries : List (String × BatchEntry)} (hentries : client.batchEntries items = .ok entries) :
    ∀ write ∈ entries, ∀ item, write.2.put = some item →
      ∀ table ∈ client.registry.tables, table.name = write.1 → table.Admits item := by
  rintro ⟨name, entry⟩ hmem item hput other hother hname
  obtain ⟨request, table, htable, hentry⟩ := exists_encodes hentries _ hmem
  cases hname
  cases htable.symm.trans (htables.requireTable_of_mem hother)
  cases request with
  | put record =>
    obtain ⟨encoded, hencode, hdone⟩ := bind_eq_ok_iff.mp hentry
    cases hdone
    cases hput
    exact .stamped (Record.get?_version_toItem (htables.accepted _ hother) hencode)
  | delete key =>
    obtain ⟨_, _, hdone⟩ := bind_eq_ok_iff.mp hentry
    cases hdone
    cases hput

omit htables in
theorem admitted_writeChunk {bound attempt : Nat} {groups : List (String × List BatchEntry)}
    (hgroups : ∀ group ∈ groups, ∀ entry ∈ group.2, ∀ item, entry.put = some item →
      ∀ table ∈ client.registry.tables, table.name = group.1 → table.Admits item) :
    Preserves (fun session : Session => session.store.Admitted client.registry)
      (client.writeChunk bound attempt groups) := by
  induction bound generalizing attempt groups with
  | zero => exact .pure _
  | succ bound ih =>
    have hentries : ∀ name context entry, (∀ item, entry.put = some item →
        ∀ table ∈ client.registry.tables, table.name = name → table.Admits item) →
        Preserves (Store.Admitted client.registry) (Store.writeEntry name context entry) :=
      fun _ _ _ hentry => Store.preserves_writeEntry
        (fun item hput => Store.admitted_put (hentry item hput)) fun _ _ => Store.admitted_delete
    have hacquire : Preserves (fun session : Session => session.store.Admitted client.registry)
        (client.acquireAll .write (Entries.names groups)) :=
      Session.preserves_of_described Store.admitted_of_described
        fun _ => Session.described_acquireAll _ _ _
    refine hacquire.bind fun _ => ?_
    refine (Session.yields_call (Store.yields_batchWrite Store.admitted_recorded
      Store.admitted_takeUnprocessedRound hentries true hgroups)).bind_preserves
        fun answer hunprocessed => ?_
    refine (Session.preserves_recordAll _ _).bind fun _ => ?_
    split
    · exact (preserves_awaitRetry _ _).bind fun _ => ih hunprocessed
    · exact .pure _

theorem admitted_batchWrite (items : List (String × List RecordWrite)) :
    Preserves (fun session : Session => session.store.Admitted client.registry)
      (client.batchWrite items) := by
  unfold batchWrite
  refine (Yields.lift fun _ hentries => hentries).bind_preserves fun entries hentries => ?_
  refine .forM_mem fun chunk hchunk => Preserves.get.bind fun _ => ?_
  apply admitted_writeChunk
  intro group hgroup entry hentry
  have hmem : (group.1, entry) ∈ entries := by
    rw [← (Batch.cut_chunks (by decide : 0 < maxBatchWrites) entries).flatten]
    exact List.mem_flatten_of_mem hchunk (Batch.mem_of_mem_byTable hgroup hentry)
  exact admits_batchEntries htables hentries _ hmem

theorem admitted_transactWrite {writes : List TransactWrite}
    (hregistered : ∀ table update, .update table update ∈ writes →
      client.table table.name = .ok table) :
    Preserves (fun session : Session => session.store.Admitted client.registry)
      (client.transactWrite writes) := by
  unfold transactWrite
  refine (Yields.lift fun _ hprepared => hprepared).bind_preserves fun prepared hprepared => ?_
  have hactions : ∀ action context,
      some action ∈ (prepared.filterMap PreparedWrite.action).map some →
      Preserves (Store.Admitted client.registry) (Store.tryAction context (some action)) := by
    intro action context hmem
    obtain ⟨_, hmem, ⟨⟩⟩ := List.mem_map.mp hmem
    obtain ⟨part, hpart, haction⟩ := List.mem_filterMap.mp hmem
    obtain ⟨write, hwrite, hprepare⟩ := exists_mem_of_forall₂ (mapM_ok hprepared) part hpart
    cases TransactWrite.becomes_of_prepareWrite hprepare with
    | put htable hput =>
      cases haction
      exact (Store.admitted_put (admits_prepared htables htable hput)).bind fun _ => .pure _
    | update _ hcompile hexpression _ =>
      cases haction
      obtain ⟨⟨⟨⟩, builder⟩, hbuilt, hdone⟩ := bind_eq_ok_iff.mp hcompile
      cases hdone
      exact (Store.admitted_update htables (hregistered _ _ hwrite) hbuilt hexpression).bind
        fun _ => .pure _
    | leftOut => cases haction
    | delete =>
      cases haction
      exact Store.admitted_delete.bind fun _ => .pure _
    | check =>
      cases haction
      exact Store.admitted_check.bind fun _ => .pure _
  have hacquire : Preserves (fun session : Session => session.store.Admitted client.registry)
      (client.acquireAll .write (writes.map TransactWrite.table)) :=
    Session.preserves_of_described Store.admitted_of_described
      fun _ => Session.described_acquireAll _ _ _
  dsimp only
  split
  · refine hacquire.bind fun _ => Preserves.bind ?_ fun _ => .pure _
    exact Session.preserves_call (Store.preserves_transactWrite Store.admitted_recorded hactions)
  · exact .pure _

/-- Every request that writes leaves what the tables admit. -/
theorem admitted_send {request : WriteRequest} (hregistered : request.Registered client.registry) :
    Preserves (fun session : Session => session.store.Admitted client.registry)
      (request.send client) := by
  cases request with
  | single request =>
    refine Preserves.bind ?_ fun _ => .pure _
    cases request with
    | save tableName record options =>
      exact (admitted_save htables record options).bind fun _ => .pure _
    | update table update => exact (admitted_sendUpdate htables hregistered).bind fun _ => .pure _
    | delete request => exact admitted_delete request
  | batch items => exact admitted_batchWrite htables items
  | transact writes =>
    exact (admitted_transactWrite htables hregistered).bind fun _ => .pure _

end Requests

end Client

/-! ### Runs -/

/-- Stores that requests of clients with one registry have made of an empty one. Each request has a
client and a session of its own. -/
inductive Store.Written (registry : Registry) (units : Int64) : Store → Prop where
  | empty : Written registry units (.empty registry units)
  | sent {client : Client} {request : WriteRequest} {session : Session}
    (hwritten : Written registry units session.store) (hclient : client.registry = registry)
    (hregistered : request.Registered registry) :
    Written registry units ((request.send client).run.run session).2.store

theorem Store.Written.admitted {registry : Registry} {units : Int64} {store : Store}
    (htables : Registry.Tables registry.tables) (hwritten : Written registry units store) :
    store.Admitted registry := by
  induction hwritten with
  | empty => exact admitted_empty htables units
  | sent _ hclient hregistered ih =>
    subst hclient
    exact Client.admitted_send htables hregistered _ ih

/-- Whatever clients write, an item of a table that migrates is at the version of the table, and one
of any other table is at that version or has none. -/
theorem Store.Written.versions {description : SchemaDescription}
    {registrations : List (String × Migration)} {registry : Registry} {tableName : String}
    {units : Int64} {store : Store}
    (hbuild : Registry.build description registrations = .ok registry)
    (htable : registry.requireTable tableName = .ok table)
    (hwritten : Written registry units store) :
    ∀ item ∈ store.items tableName,
      Item.get? item table.versionAttribute = some (Codec.versionAttribute table.version) ∨
        table.migrationsEnabled = false ∧ Item.get? item table.versionAttribute = none := by
  intro item hmem
  obtain ⟨stored, hholds, hitems⟩ :=
    hwritten.admitted (Registry.tables_of_build hbuild) table (Registry.mem_of_requireTable htable)
  rw [← Registry.name_of_requireTable htable, Store.items, hholds.table?_eq] at hmem
  cases hitems item hmem with
  | stamped hversion => exact .inl hversion
  | unversioned hdisabled hnone => exact .inr ⟨hdisabled, hnone⟩

/-- A note on an article that is not there. -/
def noteMissing : WriteRequest :=
  .single (.update stockTable ⟨[("id", .string "c")], ⟨⟨"Article", [("id", .string "c")], 0⟩, true,
    [("note", .scalar ⟨some (.string "sold"), none, false⟩)]⟩⟩)

def emptyStock : Session :=
  .start (.empty stockClient.registry 1)

def notedStock : Session :=
  ((noteMissing.send stockClient).run.run emptyStock).2

/-- The stock, which does not migrate, holds an article without a version after the note. -/
theorem Store.Written.unversioned_stock :
    Written stockClient.registry 1 notedStock.store ∧
      ∃ item ∈ notedStock.store.items "stock",
        Item.get? item stockTable.versionAttribute = none := by
  constructor
  · unfold notedStock
    exact @Written.sent _ 1 stockClient noteMissing emptyStock .empty rfl rfl
  · decide +kernel

end RecordStore
