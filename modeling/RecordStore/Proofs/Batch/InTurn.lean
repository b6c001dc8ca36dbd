import RecordStore.Proofs.Batch.Send

/-!
# Writes of a batch in turn

A batch makes its writes chunk by chunk, and those of a chunk table by table. A put that lacks its key
is refused when its turn comes: the writes before it are made then, and those after it are not. This
is what comes of batches in a store that leaves nothing unprocessed.
-/

namespace RecordStore

open Batch (Grouped byTable chunks requestsFor)

/-! ### Order of writes -/

/-- The writes of some groups, one group after another. -/
def Batch.ungroup (groups : List (String × List BatchEntry)) : List (String × BatchEntry) :=
  groups.flatMap fun group => group.2.map fun entry => (group.1, entry)

/-- The writes of a batch in the order in which they are made. -/
def Batch.inTurn (entries : List (String × BatchEntry)) : List (String × BatchEntry) :=
  (chunks maxBatchWrites entries).flatMap fun chunk => ungroup (byTable chunk)

/-- Whether a write has its key; the put of an item must hold all of its attributes. -/
def BatchEntry.hasKey (keys : KeyNames) (entry : BatchEntry) : Bool :=
  entry.put.all fun item => (keys.keyOf? item).isSome

/-- A write as batches of records are encoded, of which only puts can lack their key. -/
inductive BatchEntry.Asks (keys : KeyNames) : BatchEntry → Prop where
  | put (item : Item) : Asks keys ⟨some item, none⟩
  | delete {key : Item} (hwhole : keys.keyOf? key = some key) : Asks keys ⟨none, some key⟩

theorem BatchEntry.Asks.fits {keys : KeyNames} {entry : BatchEntry} (hasks : entry.Asks keys)
    (hkey : entry.hasKey keys = true) : entry.Fits keys := by
  cases hasks with
  | put item =>
    obtain ⟨key, hkey⟩ := Option.isSome_iff_exists.mp hkey
    exact .put hkey
  | delete hwhole => exact .delete hwhole

/-! ### What is made in turn -/

/-- One write to one table. -/
theorem TablesAfter.single {tables : List (String × StoredTable)} {name : String}
    {stored left : StoredTable} {entry : BatchEntry} (htable : Entries.find? tables name = some stored)
    (hmake : stored.make entry = .ok left) :
    TablesAfter (fun other => requestsFor other [(name, entry)]) tables
      (Entries.put tables name left) := by
  have hwrites : (fun other => requestsFor other [(name, entry)]) = writesTo name [entry] := by
    funext other
    rw [Batch.requestsFor_singleton, writesTo]
    simp only [eq_comm]
  rw [hwrites]
  refine .setTable htable ?_
  rw [List.foldlM_cons, hmake]
  rfl

section Made

variable {keysOf : String → KeyNames} {first second : List (String × BatchEntry)}
  {tables between later : List (String × StoredTable)} {succeeds : Bool}

/-- The writes before the first one that lacks its key are made. There is none such in a success. -/
structure MadeInTurn (keysOf : String → KeyNames) (writes : List (String × BatchEntry))
    (tables later : List (String × StoredTable)) (succeeds : Bool) : Prop where
  tables : TablesAfter (fun name => requestsFor name
    (writes.takeWhile fun write => write.2.hasKey (keysOf write.1))) tables later
  succeeds : succeeds = writes.all fun write => write.2.hasKey (keysOf write.1)

namespace MadeInTurn

theorem none : MadeInTurn keysOf [] tables tables true :=
  ⟨.refl _, rfl⟩

theorem append (hfirst : MadeInTurn keysOf first tables between true)
    (hsecond : MadeInTurn keysOf second between later succeeds) :
    MadeInTurn keysOf (first ++ second) tables later succeeds := by
  have hall := hfirst.succeeds.symm
  have hkeys := List.all_eq_true.mp hall
  constructor
  · have hmade := hfirst.tables.trans hsecond.tables
    have hwhole := @List.takeWhile_append_of_pos _ _ _ [] hkeys
    rw [List.append_nil, List.takeWhile_nil, List.append_nil] at hwhole
    rw [hwhole] at hmade
    rw [List.takeWhile_append_of_pos hkeys]
    simpa only [Batch.requestsFor_append] using hmade
  · rw [hsecond.succeeds, List.all_append, hall]
    rfl

/-- What comes after a write that is refused is not made. -/
theorem refused (hfirst : MadeInTurn keysOf first tables later false)
    (second : List (String × BatchEntry)) :
    MadeInTurn keysOf (first ++ second) tables later false := by
  have hsome := hfirst.succeeds.symm
  constructor
  · have hshorter : (first.takeWhile fun write => write.2.hasKey (keysOf write.1)).length ≠
        first.length := by
      intro hlength
      have hall := @List.all_takeWhile _ (fun write => write.2.hasKey (keysOf write.1)) first
      rw [(List.takeWhile_prefix _).eq_of_length hlength, hsome] at hall
      cases hall
    rw [List.takeWhile_append, if_neg hshorter]
    exact hfirst.tables
  · rw [List.all_append, hsome]
    rfl

end MadeInTurn

/-- A table is there for the write, and has the expected keys. -/
def Asked (keysOf : String → KeyNames) (tables : List (String × StoredTable))
    (write : String × BatchEntry) : Prop :=
  ∃ stored, Entries.find? tables write.1 = some stored ∧ stored.keys = keysOf write.1 ∧
    write.2.Asks stored.keys

theorem TablesAfter.asked {writes : String → List BatchEntry} {write : String × BatchEntry}
    (hafter : TablesAfter writes tables later) (hasked : Asked keysOf tables write) :
    Asked keysOf later write := by
  obtain ⟨stored, htable, hkeys, hasks⟩ := hasked
  obtain ⟨left, hleft, hsame⟩ := hafter.keys htable
  exact ⟨left, hleft, hsame.trans hkeys, hsame ▸ hasks⟩

end Made

/-! ### Writes of one call -/

namespace Store

variable {store : Store} {keysOf : String → KeyNames} {name : String}

theorem madeInTurn_writeEntry (context : RequestContext) {entry : BatchEntry}
    (hasked : Asked keysOf store.tables (name, entry)) :
    ∃ outcome tables, (writeEntry name context entry).run.run store = (outcome, { store with tables }) ∧
      MadeInTurn keysOf [(name, entry)] store.tables tables outcome.isOk := by
  obtain ⟨stored, htable, hkeys, hasks⟩ := hasked
  cases hkey : entry.hasKey stored.keys with
  | true =>
    obtain ⟨left, hmake, hrun⟩ := run_writeEntry context htable (hasks.fits hkey)
    refine ⟨_, (store.setTable name left).tables, hrun, ?_, ?_⟩
    · rw [List.takeWhile_cons_of_pos (by rw [← hkeys]; exact hkey), List.takeWhile_nil]
      exact .single htable hmake
    · simp [← hkeys, hkey, Except.isOk, Except.toBool]
  | false =>
    cases hasks with
    | delete => cases hkey
    | put item =>
      have hnone : stored.keys.keyOf? item = none := by simpa [BatchEntry.hasKey] using hkey
      have hput : stored.put item none .none = .error .missingKeyAttributes := by
        rw [StoredTable.put, hnone]
        rfl
      have hwrite := run_write context htable fun table => table.put item none .none
      rw [hput] at hwrite
      refine ⟨_, store.tables, run_bind_of_error hwrite, ?_, ?_⟩
      · rw [List.takeWhile_cons_of_neg (by rw [← hkeys]; simp [hkey])]
        exact .refl _
      · simp [← hkeys, hkey, Except.isOk, Except.toBool]

theorem madeInTurn_writeEntries (context : RequestContext) {entries : List BatchEntry}
    (hasked : ∀ entry ∈ entries, Asked keysOf store.tables (name, entry)) :
    ∃ outcome tables, (entries.forM (writeEntry name context)).run.run store =
        (outcome, { store with tables }) ∧
      MadeInTurn keysOf (entries.map fun entry => (name, entry)) store.tables tables
        outcome.isOk := by
  induction entries generalizing store with
  | nil => exact ⟨.ok (), store.tables, rfl, .none⟩
  | cons entry rest ih =>
    obtain ⟨outcome, between, hwrite, hfirst⟩ :=
      madeInTurn_writeEntry context (hasked entry List.mem_cons_self)
    change ∃ outcome tables, (writeEntry name context entry >>= fun _ =>
      rest.forM (writeEntry name context)).run.run store = (outcome, { store with tables }) ∧
        MadeInTurn keysOf ([(name, entry)] ++ rest.map fun entry => (name, entry)) _ _ _
    cases outcome with
    | error error =>
      rw [run_bind_of_error hwrite]
      exact ⟨_, between, rfl, hfirst.refused _⟩
    | ok done =>
      obtain ⟨outcome, tables, hrest, hmade⟩ := @ih { store with tables := between }
        fun other hmem => hfirst.tables.asked (hasked other (List.mem_cons_of_mem _ hmem))
      rw [run_bind_of_ok hwrite, hrest]
      exact ⟨outcome, tables, rfl, hfirst.append hmade⟩

/-- What is left of a table that handles its whole share: nothing. -/
theorem batchWriteTable_whole (context : RequestContext) (name : String)
    (entries : List BatchEntry) : batchWriteTable context false true name entries = (do
      let _ ← requireTable name context
      entries.forM (writeEntry name context)
      return ⟨[], (capacity true name entries.length).toList⟩) := by
  have hcount : processedCount false entries.length = entries.length := rfl
  unfold batchWriteTable
  simp only [hcount, List.take_length, List.drop_length]
  rfl

theorem madeInTurn_batchWriteTable (context : RequestContext) {entries : List BatchEntry}
    (hentries : entries ≠ []) (hasked : ∀ entry ∈ entries, Asked keysOf store.tables (name, entry)) :
    ∃ outcome tables, (batchWriteTable context false true name entries).run.run store =
        (outcome, { store with tables }) ∧
      MadeInTurn keysOf (entries.map fun entry => (name, entry)) store.tables tables outcome.isOk ∧
      ∀ answer, outcome = .ok answer → answer.unprocessed = [] := by
  obtain ⟨entry, hentry⟩ := List.exists_mem_of_ne_nil _ hentries
  obtain ⟨stored, htable, _⟩ := hasked entry hentry
  obtain ⟨outcome, tables, hwrites, hmade⟩ := madeInTurn_writeEntries context hasked
  rw [batchWriteTable_whole, run_bind_of_ok (run_requireTable context htable)]
  cases outcome with
  | error error =>
    rw [run_bind_of_error hwrites]
    exact ⟨_, tables, rfl, hmade, by rintro _ ⟨⟩⟩
  | ok done =>
    rw [run_bind_of_ok hwrites]
    exact ⟨_, tables, rfl, hmade, by rintro _ ⟨⟩; rfl⟩

/-- The groups of a call that leaves nothing unprocessed are written one after another. -/
theorem madeInTurn_batchWriteTables (context : RequestContext)
    {groups : List (String × List BatchEntry)} (hgroups : ∀ group ∈ groups, group.2 ≠ [])
    (hasked : ∀ write ∈ Batch.ungroup groups, Asked keysOf store.tables write) :
    ∃ outcome tables, (batchWriteTables context false true groups).run.run store =
        (outcome, { store with tables }) ∧
      MadeInTurn keysOf (Batch.ungroup groups) store.tables tables outcome.isOk ∧
      ∀ answer, outcome = .ok answer → answer.unprocessed = [] := by
  induction groups generalizing store with
  | nil => exact ⟨.ok ⟨[], []⟩, store.tables, rfl, .none, by rintro _ ⟨⟩; rfl⟩
  | cons group rest ih =>
    obtain ⟨name, entries⟩ := group
    change ∃ outcome tables, _ ∧ MadeInTurn keysOf
      ((entries.map fun entry => (name, entry)) ++ Batch.ungroup rest) _ _ _ ∧ _
    obtain ⟨outcome, between, hgroup, hfirst, hfirstLeft⟩ := madeInTurn_batchWriteTable context
      (hgroups (name, entries) List.mem_cons_self)
      fun entry hentry => hasked _ (List.mem_append_left _ (List.mem_map_of_mem hentry))
    rw [batchWriteTables]
    cases outcome with
    | error error =>
      rw [run_bind_of_error hgroup]
      exact ⟨_, between, rfl, hfirst.refused _, by rintro _ ⟨⟩⟩
    | ok first =>
      obtain ⟨outcome, tables, hrest, hmade, hleft⟩ := @ih { store with tables := between }
        (fun group hmem => hgroups group (List.mem_cons_of_mem _ hmem))
        fun write hmem => hfirst.tables.asked (hasked write (List.mem_append_right _ hmem))
      rw [run_bind_of_ok hgroup]
      cases outcome with
      | error error =>
        rw [run_bind_of_error hrest]
        exact ⟨_, tables, rfl, hfirst.append hmade, by rintro _ ⟨⟩⟩
      | ok others =>
        rw [run_bind_of_ok hrest]
        refine ⟨_, tables, rfl, hfirst.append hmade, ?_⟩
        rintro _ ⟨⟩
        rw [hfirstLeft first rfl, hleft others rfl]
        rfl

/-- A call in a store that leaves nothing unprocessed. -/
theorem madeInTurn_batchWrite {groups : List (String × List BatchEntry)}
    (hrounds : store.unprocessedRounds = 0) (hgroups : ∀ group ∈ groups, group.2 ≠ [])
    (hasked : ∀ write ∈ Batch.ungroup groups, Asked keysOf store.tables write) :
    ∃ outcome later, (batchWrite groups true).run.run store = (outcome, later) ∧
      MadeInTurn keysOf (Batch.ungroup groups) store.tables later.tables outcome.isOk ∧
      later.unprocessedRounds = 0 ∧ ∀ answer, outcome = .ok answer → answer.unprocessed = [] := by
  have hrecord : (record .batchWriteItem (RequestContext.ofTables (Entries.names groups)).table
      (Entries.count groups)).run.run store =
        (.ok (), { store with calls := store.calls ++ [batchCall groups] }) := rfl
  have htake := run_takeUnprocessedRound { store with calls := store.calls ++ [batchCall groups] }
  obtain ⟨outcome, tables, hwrite, hmade, hleft⟩ := @madeInTurn_batchWriteTables
    ⟨store.tables, store.calls ++ [batchCall groups], store.unprocessedRounds - 1⟩ keysOf
    (.ofTables (Entries.names groups)) groups hgroups hasked
  have hthrottles : ({ store with calls := store.calls ++ [batchCall groups] } : Store).throttles =
      false := by
    rw [throttles, hrounds]
    rfl
  rw [hthrottles] at htake
  refine ⟨outcome, ⟨tables, store.calls ++ [batchCall groups], store.unprocessedRounds - 1⟩, ?_, hmade,
    ?_, hleft⟩
  · rw [batchWrite, run_bind_of_ok hrecord, run_bind_of_ok htake]
    exact hwrite
  · change store.unprocessedRounds - 1 = 0
    rw [hrounds]

end Store

theorem Batch.mem_of_mem_ungroup {run : List (String × BatchEntry)} {write : String × BatchEntry}
    (hmem : write ∈ ungroup (byTable run)) : write ∈ run := by
  obtain ⟨group, hgroup, hwrite⟩ := List.mem_flatMap.mp hmem
  obtain ⟨entry, hentry, rfl⟩ := List.mem_map.mp hwrite
  exact mem_of_mem_byTable hgroup hentry

theorem Batch.mem_of_mem_inTurn {entries : List (String × BatchEntry)} {write : String × BatchEntry}
    (hmem : write ∈ inTurn entries) : write ∈ entries := by
  obtain ⟨chunk, hchunk, hwrite⟩ := List.mem_flatMap.mp hmem
  rw [← (cut_chunks (by decide : 0 < maxBatchWrites) entries).flatten]
  exact List.mem_flatten_of_mem hchunk (mem_of_mem_ungroup hwrite)

/-! ### Writes of a batch -/

/-- The keys of a table by name. -/
def Client.keysOf (client : Client) (name : String) : KeyNames :=
  match client.table name with
  | .ok table => .ofSchema table.keys
  | .error _ => default

theorem Client.keysOf_eq {client : Client} {name : String} {table : TableSchema}
    (htable : client.table name = .ok table) : client.keysOf name = .ofSchema table.keys := by
  rw [keysOf, htable]

namespace Client

variable {client : Client} {session : Session} {keysOf : String → KeyNames}

theorem madeInTurn_writeChunk (client : Client) {groups : List (String × List BatchEntry)}
    (hrounds : session.store.unprocessedRounds = 0) (hgroups : ∀ group ∈ groups, group.2 ≠ [])
    (hasked : ∀ write ∈ Batch.ungroup groups, Asked keysOf session.store.tables write) :
    ∃ outcome last, (client.writeChunk 1 1 groups).run.run session = (outcome, last) ∧
      MadeInTurn keysOf (Batch.ungroup groups) session.store.tables last.store.tables outcome.isOk ∧
      last.store.unprocessedRounds = 0 := by
  have hthere : ∀ name ∈ Entries.names groups, ∃ stored,
      session.store.table? name = some stored := by
    intro name hmem
    obtain ⟨group, hgroup, rfl⟩ := List.mem_map.mp hmem
    obtain ⟨entry, hentry⟩ := List.exists_mem_of_ne_nil _ (hgroups group hgroup)
    obtain ⟨stored, htable, _⟩ := hasked (group.1, entry)
      (List.mem_flatMap.mpr ⟨group, hgroup, List.mem_map_of_mem hentry⟩)
    exact ⟨stored, htable⟩
  obtain ⟨ready, hacquire, hdescribed⟩ :=
    Session.run_acquireAll client.config.limits .write hthere
  obtain ⟨outcome, left, hwrite, hmade, hleftRounds, hleft⟩ := @Store.madeInTurn_batchWrite
    ready.store keysOf groups (hdescribed.rounds.trans hrounds) hgroups
    (by rw [hdescribed.tables]; exact hasked)
  rw [hdescribed.tables] at hmade
  have hcall := Session.run_call_eq hwrite
  rw [writeChunk, acquireAll, run_bind_of_ok hacquire]
  cases outcome with
  | error error =>
    rw [run_bind_of_error hcall]
    exact ⟨_, _, rfl, hmade, hleftRounds⟩
  | ok answer =>
    obtain ⟨last, hrecord, hstore⟩ := Session.run_recordAll .write answer.capacities
      { ready with store := left }
    rw [run_bind_of_ok hcall, run_bind_of_ok hrecord, hleft answer rfl]
    refine ⟨.ok (), last, rfl, ?_, ?_⟩
    · rw [hstore]
      exact hmade
    · rw [hstore]
      exact hleftRounds

/-- Runs that are sent one after another, up to one with a write that is refused. -/
theorem madeInTurn_sendRuns (client : Client) {runs : List (List (String × BatchEntry))}
    (hrounds : session.store.unprocessedRounds = 0)
    (hasked : ∀ run ∈ runs, ∀ write ∈ run, Asked keysOf session.store.tables write) :
    ∃ outcome last, (runs.forM client.sendRun).run.run session = (outcome, last) ∧
      MadeInTurn keysOf (runs.flatMap fun run => Batch.ungroup (byTable run)) session.store.tables
        last.store.tables outcome.isOk ∧
      last.store.unprocessedRounds = 0 := by
  induction runs generalizing session with
  | nil => exact ⟨.ok (), session, rfl, .none, hrounds⟩
  | cons run rest ih =>
    obtain ⟨outcome, middle, hrun, hfirst, hmiddle⟩ := @madeInTurn_writeChunk session keysOf client
      (byTable run) hrounds (Batch.gathers_byTable run).nonempty
      fun write hmem => hasked run List.mem_cons_self write (Batch.mem_of_mem_ungroup hmem)
    have hsend : (client.sendRun run).run.run session = (outcome, middle) := by
      have hbound : callBound.run.run session =
          (.ok (session.store.unprocessedRounds + 1), session) := rfl
      rw [sendRun, run_bind_of_ok hbound, hrounds, hrun]
    change ∃ outcome last, (client.sendRun run >>= fun _ =>
      rest.forM client.sendRun).run.run session = (outcome, last) ∧
        MadeInTurn keysOf (Batch.ungroup (byTable run) ++ _) _ _ _ ∧ _
    cases outcome with
    | error error =>
      rw [run_bind_of_error hsend]
      exact ⟨_, middle, rfl, hfirst.refused _, hmiddle⟩
    | ok done =>
      obtain ⟨outcome, last, hrest, hmade, hlast⟩ := @ih middle hmiddle
        fun other hmem write hwrite =>
          hfirst.tables.asked (hasked other (List.mem_cons_of_mem _ hmem) write hwrite)
      rw [run_bind_of_ok hsend, hrest]
      exact ⟨outcome, last, rfl, hfirst.append hmade, hlast⟩

section Batches

variable {items : List (String × List RecordWrite)} {entries : List (String × BatchEntry)}

/-- Every entry of a batch is what a write of a record is encoded to. -/
theorem exists_encodes (hentries : client.batchEntries items = .ok entries) :
    ∀ write ∈ entries, ∃ request, client.Encodes write.1 request write.2 := by
  rintro ⟨name, entry⟩ hmem
  obtain ⟨request, _, hencodes⟩ := exists_mem_of_forall₂
    (encodes_requestsFor hentries name) entry (Batch.mem_requestsFor.mpr hmem)
  exact ⟨request, hencodes⟩

/-- The table of every encoded write is there for it. -/
theorem asked_of_batchEntries {store : Store} (hserves : store.Serves client.registry)
    (hentries : client.batchEntries items = .ok entries) :
    ∀ write ∈ entries, Asked client.keysOf store.tables write := by
  rintro ⟨name, entry⟩ hmem
  obtain ⟨write, table, htable, hentry⟩ := exists_encodes hentries _ hmem
  obtain ⟨stored, hstored, hkeys⟩ :=
    hserves table (Registry.mem_of_requireTable htable)
  rw [Registry.name_of_requireTable htable] at hstored
  refine ⟨stored, hstored, hkeys.trans (keysOf_eq htable).symm, ?_⟩
  cases write with
  | put record =>
    obtain ⟨item, _, hdone⟩ := bind_eq_ok_iff.mp hentry
    cases hdone
    exact .put item
  | delete key =>
    obtain ⟨erased, herased, hdone⟩ := bind_eq_ok_iff.mp hentry
    cases hdone
    rw [hkeys]
    exact .delete (KeySchema.keyOf?_toItem herased)

/-- A batch makes its writes in turn, up to the first that lacks its key. -/
theorem madeInTurn_batchWrite (hserves : session.store.Serves client.registry)
    (hrounds : session.store.unprocessedRounds = 0)
    (hentries : client.batchEntries items = .ok entries) :
    ∃ outcome last, (client.batchWrite items).run.run session = (outcome, last) ∧
      MadeInTurn client.keysOf (Batch.inTurn entries) session.store.tables last.store.tables
        outcome.isOk ∧
      last.store.unprocessedRounds = 0 := by
  have hasked := asked_of_batchEntries hserves hentries
  have hcut := Batch.cut_chunks (by decide : 0 < maxBatchWrites) entries
  obtain ⟨outcome, last, hrun, hmade⟩ := @madeInTurn_sendRuns session client.keysOf client
    (chunks maxBatchWrites entries) hrounds fun run hmem write hwrite => hasked write (by
      rw [← hcut.flatten]
      exact List.mem_flatten_of_mem hmem hwrite)
  refine ⟨outcome, last, ?_, hmade⟩
  rw [batchWrite, run_bind_of_ok ((run_except _ _).trans (congrArg (·, session) hentries))]
  exact hrun

end Batches

end Client

end RecordStore
