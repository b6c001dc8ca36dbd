import RecordStore.Proofs.Batch.Keys
import RecordStore.Proofs.Batch.Send
import RecordStore.Proofs.Client.Failure
import RecordStore.Proofs.Client.Paging
import RecordStore.Proofs.Store.Reachable

/-!
# Batches of keys that are read

A batch of keys reads the items that are bound to the keys, each of them once, in calls that hold
neither too many keys nor a key twice. Rounds that leave keys unread change nothing about that, as
long as the retry policy allows as many attempts as it takes.
-/

namespace RecordStore

open Batch (Allowed Grouped Cut byTable chunks requestsFor)
open Entries (under)

/-- Every item of the tables is at the version of its table, and can be read. -/
def Store.IsCurrent (store : Store) (registry : Registry) : Prop :=
  ∀ table ∈ registry.tables, ∀ item ∈ store.items table.name, table.Current item

namespace Client

variable {client : Client} {store middle last : Store} {session : Session}
  {groups : List (String × List Item)} {wanted others : String → List Item}
  {held between later : List (String × List Record)}

/-! ### Records that are gained -/

/-- The record that an item of a table is read as. -/
def recordOf (client : Client) (name : String) (item : Item) : Except Error Record := do
  Record.ofItem (← client.table name) item

/-- The records of the items that the store binds to the wanted keys follow those that were held. -/
structure Gains (client : Client) (store : Store) (wanted : String → List Item)
    (held later : List (String × List Record)) : Prop where
  names : Entries.names later = Entries.names held
  added : ∀ name, ∃ more,
    ((wanted name).filterMap (store.bound name)).mapM (client.recordOf name) = .ok more ∧
      under later name = under held name ++ more

namespace Gains

theorem none (client : Client) (store : Store) (held : List (String × List Record)) :
    client.Gains store (fun _ => []) held held :=
  ⟨rfl, fun _ => ⟨[], rfl, (List.append_nil _).symm⟩⟩

theorem trans (hfirst : client.Gains store wanted held between)
    (hsecond : client.Gains store others between later) :
    client.Gains store (fun name => wanted name ++ others name) held later := by
  refine ⟨hsecond.names.trans hfirst.names, fun name => ?_⟩
  obtain ⟨first, hfirstRead, hfirstAdded⟩ := hfirst.added name
  obtain ⟨second, hsecondRead, hsecondAdded⟩ := hsecond.added name
  refine ⟨first ++ second, ?_, ?_⟩
  · rw [List.filterMap_append]
    exact mapM_append_ok hfirstRead hsecondRead
  · rw [hsecondAdded, hfirstAdded, List.append_assoc]

end Gains

/-- Every group of keys can be read: the keys are whole, and every item of the table is at its
version. -/
def CanRead (client : Client) (store : Store) (groups : List (String × List Item)) : Prop :=
  ∀ group ∈ groups, ∃ table stored, client.table group.1 = .ok table ∧
    store.table? group.1 = some stored ∧ (∀ key ∈ group.2, stored.keys.keyOf? key = some key) ∧
    ∀ item ∈ stored.items, table.Current item

namespace CanRead

theorem answers (hcan : client.CanRead store groups) : store.Answers groups := by
  intro group hmem
  obtain ⟨_, stored, _, hstored, hwhole, _⟩ := hcan group hmem
  exact ⟨stored, hstored, hwhole⟩

theorem of_tables_eq (hcan : client.CanRead store groups) (htables : last.tables = store.tables) :
    client.CanRead last groups := by
  intro group hmem
  obtain ⟨table, stored, htable, hstored, hgroup⟩ := hcan group hmem
  exact ⟨table, stored, htable, (Store.table?_congr htables _).trans hstored, hgroup⟩

theorem remaining (hcan : client.CanRead store groups) (throttled : Bool) :
    client.CanRead store (Batch.remaining throttled groups) := by
  intro group hmem
  obtain ⟨_, whole, hwhole, hname, hdrop⟩ := Batch.mem_remaining hmem
  obtain ⟨table, stored, htable, hstored, hkeys, hcurrent⟩ := hcan whole hwhole
  rw [← hname, hdrop]
  exact ⟨table, stored, htable, hstored, fun key hkey => hkeys key (List.mem_of_mem_drop hkey),
    hcurrent⟩

theorem handled (hcan : client.CanRead store groups) (throttled : Bool) :
    client.CanRead store (Batch.handled throttled groups) := by
  intro group hmem
  obtain ⟨whole, hwhole, rfl⟩ := List.mem_map.mp hmem
  obtain ⟨table, stored, htable, hstored, hkeys, hcurrent⟩ := hcan whole hwhole
  exact ⟨table, stored, htable, hstored, fun key hkey => hkeys key (List.mem_of_mem_take hkey),
    hcurrent⟩

end CanRead

theorem run_loadTable {name : String} {keys : List Item} {table : TableSchema}
    {stored : StoredTable} (htable : client.table name = .ok table)
    (hstored : store.table? name = some stored) (hcurrent : ∀ item ∈ stored.items, table.Current item)
    (hheld : name ∈ Entries.names held) (session : Session) :
    ∃ later, (client.loadTable held (name, keys.filterMap (store.bound name))).run.run session =
        (.ok later, session) ∧ client.Gains store (under [(name, keys)]) held later := by
  have hall : ∀ item ∈ keys.filterMap (store.bound name), table.Current item := by
    intro item hmem
    obtain ⟨key, _, hbound⟩ := List.mem_filterMap.mp hmem
    rw [Store.bound, hstored] at hbound
    exact hcurrent item (List.mem_of_find?_eq_some hbound)
  obtain ⟨records, hrecords⟩ := exists_mapM fun item hitem => (hall item hitem).reads
  have hrecordOf : client.recordOf name = Record.ofItem table := by
    funext item
    rw [recordOf, htable]
    rfl
  refine ⟨Batch.addRecords held name records, ?_, ?_, fun other => ?_⟩
  · have htableRun : (show SessionCall TableSchema from (client.table name : Except Error _)).run.run
        session = (.ok table, session) := (run_except _ _).trans (congrArg (·, session) htable)
    have hload := run_loadAll client hall hrecords true session
    rw [loadTable, run_bind_of_ok htableRun, run_bind_of_ok hload]
    rfl
  · exact Entries.names_put hheld _
  · rw [Entries.under_cons, Batch.addRecords, Entries.under_put]
    by_cases hname : name = other
    · subst hname
      rw [if_pos rfl, if_pos rfl, hrecordOf]
      exact ⟨records, hrecords, rfl⟩
    · rw [if_neg hname, if_neg hname]
      exact ⟨[], rfl, (List.append_nil _).symm⟩

/-- What a call found is added to the records of its tables. -/
theorem run_loadTables (hnames : (Entries.names groups).Nodup) (hcan : client.CanRead store groups)
    (hheld : ∀ group ∈ groups, group.1 ∈ Entries.names held) (session : Session) :
    ∃ later, ((store.found groups).foldlM client.loadTable held).run.run session =
        (.ok later, session) ∧ client.Gains store (under groups) held later := by
  induction groups generalizing held with
  | nil => exact ⟨held, rfl, .none client store held⟩
  | cons group rest ih =>
    obtain ⟨name, keys⟩ := group
    obtain ⟨table, stored, htable, hstored, _, hcurrent⟩ := hcan (name, keys) List.mem_cons_self
    obtain ⟨between, hload, hfirst⟩ := @run_loadTable client store held name keys table stored
      htable hstored hcurrent (hheld (name, keys) List.mem_cons_self) session
    obtain ⟨later, hrest, hgains⟩ := @ih between (List.nodup_cons.mp hnames).2
      (fun group hmem => hcan group (List.mem_cons_of_mem _ hmem))
      fun group hmem => by
        rw [hfirst.names]
        exact hheld group (List.mem_cons_of_mem _ hmem)
    refine ⟨later, ?_, ?_⟩
    · change ((client.loadTable held (name, keys.filterMap (store.bound name))) >>= fun held =>
        (store.found rest).foldlM client.loadTable held).run.run session = _
      rw [run_bind_of_ok hload, hrest]
    · rw [funext (Entries.under_cons_of_fresh hnames)]
      exact hfirst.trans hgains

/-! ### Reading a chunk -/

/-- The wanted keys were read in some calls, all of which the store takes. -/
structure ReadsKeys (client : Client) (wanted : String → List Item)
    (held later : List (String × List Record)) (store last : Store)
    (calls : List (List (String × List Item))) : Prop where
  gains : client.Gains store wanted held later
  fetched : Store.Fetched calls store last
  tables : last.tables = store.tables
  rounds : last.unprocessedRounds ≤ store.unprocessedRounds
  allowed : ∀ groups ∈ calls, Allowed groups

theorem Gains.of_tables_eq (hgains : client.Gains middle wanted held later)
    (htables : middle.tables = store.tables) : client.Gains store wanted held later := by
  have hbound : middle.bound = store.bound := by
    funext name key
    rw [Store.bound, Store.bound, Store.table?_congr htables]
  refine ⟨hgains.names, ?_⟩
  rw [← hbound]
  exact hgains.added

theorem ReadsKeys.trans {first second : List (List (String × List Item))}
    (hfirst : client.ReadsKeys wanted held between store middle first)
    (hsecond : client.ReadsKeys others between later middle last second) :
    client.ReadsKeys (fun name => wanted name ++ others name) held later store last
      (first ++ second) where
  gains := hfirst.gains.trans (hsecond.gains.of_tables_eq hfirst.tables)
  fetched := hfirst.fetched.trans hsecond.fetched
  tables := hsecond.tables.trans hfirst.tables
  rounds := Nat.le_trans hsecond.rounds hfirst.rounds
  allowed := fun groups hmem =>
    (List.mem_append.mp hmem).elim (hfirst.allowed groups) (hsecond.allowed groups)

/-- Reads what a call left unread, if it left anything. -/
def getLeft (client : Client) (bound attempt : Nat) (left : List (String × List Item))
    (held : List (String × List Record)) : SessionCall (List (String × List Record)) :=
  if left.isEmpty then return held
  else do
    client.awaitRetry attempt (Entries.count left)
    client.getChunk bound (attempt + 1) left held

/-- A chunk is read by one call, which is followed by others for what it left. -/
theorem run_getChunk_succ (client : Client) (bound attempt : Nat) (hallowed : Allowed groups)
    (hcan : client.CanRead session.store groups)
    (hheld : ∀ group ∈ groups, group.1 ∈ Entries.names held) :
    ∃ later middle, client.ReadsKeys (under (Batch.handled session.store.throttles groups)) held later
        session.store middle.store [groups] ∧
      middle.store.unprocessedRounds = session.store.unprocessedRounds - 1 ∧
      (client.getChunk (bound + 1) attempt groups held).run.run session =
        (client.getLeft bound attempt (Batch.remaining session.store.throttles groups)
          later).run.run middle := by
  have hthere : ∀ name ∈ Entries.names groups, ∃ stored,
      session.store.table? name = some stored := by
    intro name hmem
    obtain ⟨group, hgroup, rfl⟩ := List.mem_map.mp hmem
    obtain ⟨stored, hstored, _⟩ := hcan.answers group hgroup
    exact ⟨stored, hstored⟩
  obtain ⟨ready, hacquire, hdescribed⟩ := Session.run_acquireAll client.config.limits .read hthere
  have hthrottles : ready.store.throttles = session.store.throttles := by
    rw [Store.throttles, hdescribed.rounds]
    rfl
  obtain ⟨capacities, hget⟩ := Store.run_batchGet
    (hcan.of_tables_eq hdescribed.tables).answers
  obtain ⟨middle, hrecord, hstore⟩ := Session.run_recordAll .read capacities
    { ready with store := ⟨ready.store.tables, ready.store.calls ++ [Store.fetchCall groups],
      ready.store.unprocessedRounds - 1⟩ }
  rw [hthrottles] at hget
  have hfound : ready.store.found = session.store.found := by
    funext groups
    refine List.map_congr_left fun group _ => ?_
    have hbound : ready.store.bound group.1 = session.store.bound group.1 := by
      funext key
      rw [Store.bound, Store.bound, hdescribed.table?_eq]
    rw [hbound]
  obtain ⟨later, hload, hgains⟩ := @run_loadTables client session.store
    (Batch.handled session.store.throttles groups) held
    (by
      have hnames : Entries.names (Batch.handled session.store.throttles groups) =
          Entries.names groups := by
        simp [Batch.handled, Entries.names]
      rw [hnames]
      exact hallowed.ascending.nodup)
    (hcan.handled _)
    (by
      intro group hmem
      obtain ⟨whole, hwhole, rfl⟩ := List.mem_map.mp hmem
      exact hheld whole hwhole) middle
  refine ⟨later, middle, ⟨hgains, ?_, ?_, ?_, ?_⟩, ?_, ?_⟩
  · refine .call hdescribed hget (.done ?_)
    rw [hstore]
    exact .refl _
  · rw [hstore, hdescribed.tables]
  · rw [hstore, hdescribed.rounds]
    exact Nat.sub_le _ _
  · intro call hmem
    rw [List.mem_singleton.mp hmem]
    exact hallowed
  · rw [hstore, hdescribed.rounds]
  · change (do
      client.acquireAll .read (Entries.names groups)
      let answer ← Session.call (Store.batchGet (Store.keyRequests groups) true)
      Session.recordAll .read answer.capacities
      let held ← answer.responses.foldlM client.loadTable held
      client.getLeft bound attempt
        (answer.unprocessed.map fun entry : String × BatchKeys => (entry.1, BatchKeys.keys entry.2)) held).run.run
          session = _
    rw [acquireAll, run_bind_of_ok hacquire, run_bind_of_ok (Session.run_call_eq hget),
      run_bind_of_ok hrecord, hfound, run_bind_of_ok hload]
    exact congrArg (fun left => (client.getLeft bound attempt left later).run.run middle)
      (Store.map_keyRequests _)

/-- One call more than there are throttled rounds is enough for a chunk. -/
theorem run_getChunk (client : Client) {bound : Nat} (attempt : Nat) (hallowed : Allowed groups)
    (hgroups : groups ≠ []) (hcan : client.CanRead session.store groups)
    (hheld : ∀ group ∈ groups, group.1 ∈ Entries.names held)
    (hbound : session.store.unprocessedRounds < bound)
    (hattempts : ∀ limit, client.config.retry.maxAttempts = some limit →
      session.store.unprocessedRounds ≤ limit - attempt) :
    ∃ later last calls,
      (client.getChunk bound attempt groups held).run.run session = (.ok later, last) ∧
        client.ReadsKeys (under groups) held later session.store last.store calls := by
  induction bound generalizing attempt session groups held with
  | zero => exact absurd hbound (Nat.not_lt_zero _)
  | succ bound ih =>
    obtain ⟨between, middle, hreads, hrounds, hrun⟩ :=
      client.run_getChunk_succ bound attempt hallowed hcan hheld
    have hboth : under groups = fun name =>
        under (Batch.handled session.store.throttles groups) name ++
          under (Batch.remaining session.store.throttles groups) name :=
      funext fun name => (Batch.under_handled_append_remaining session.store.throttles
        hallowed.ascending.nodup name).symm
    rw [hboth]
    cases hthrottles : session.store.throttles with
    | false =>
      rw [hthrottles, Batch.remaining_unthrottled] at hrun
      rw [hthrottles] at hreads
      have hnone : (fun name => under (Batch.handled false groups) name ++
          under (Batch.remaining false groups) name) = under (Batch.handled false groups) := by
        rw [Batch.remaining_unthrottled]
        exact funext fun _ => List.append_nil _
      rw [hnone]
      exact ⟨between, middle, [groups], hrun, hreads⟩
    | true =>
      have hthrottled : session.store.unprocessedRounds ≠ 0 := of_decide_eq_true hthrottles
      have hleft := Batch.remaining_throttled_ne_nil hallowed.toGrouped hgroups
      have hget : client.getLeft bound attempt (Batch.remaining true groups) between = (do
          client.awaitRetry attempt (Entries.count (Batch.remaining true groups))
          client.getChunk bound (attempt + 1) (Batch.remaining true groups) between) :=
        if_neg (by simpa using hleft)
      have hallows : client.config.retry.allowsRetry attempt = true := by
        rw [RetryPolicy.allowsRetry, Option.all_eq_true]
        intro limit hlimit
        have hless := hattempts limit hlimit
        exact decide_eq_true (by omega)
      obtain ⟨waited, hwait, hstore⟩ := run_awaitRetry
        (Entries.count (Batch.remaining true groups)) hallows middle
      rw [hthrottles, hget, run_bind_of_ok hwait] at hrun
      rw [hthrottles] at hreads
      have hless : waited.store.unprocessedRounds < bound := by
        rw [hstore, hrounds]
        omega
      have htables : waited.store.tables = session.store.tables := by
        rw [hstore]
        exact hreads.tables
      obtain ⟨later, last, calls, hrest, hrestReads⟩ := @ih waited (Batch.remaining true groups)
        between (attempt + 1) (hallowed.remaining true) hleft
        ((hcan.remaining true).of_tables_eq htables)
        (by
          intro group hmem
          obtain ⟨_, whole, hwhole, hname, _⟩ := Batch.mem_remaining hmem
          rw [← hname, hreads.gains.names]
          exact hheld whole hwhole) hless
        (by
          intro limit hlimit
          have hallowed := hattempts limit hlimit
          rw [hstore, hrounds]
          omega)
      rw [hstore] at hrestReads
      exact ⟨later, last, groups :: calls, hrun.trans hrest, hreads.trans hrestReads⟩

/-! ### Reading all chunks -/

/-- Reads one run of the keys of a batch. -/
def getRun (client : Client) (held : List (String × List Record)) (run : List (String × Item)) :
    SessionCall (List (String × List Record)) := do
  client.getChunk (← callBound) 1 (byTable run) held

theorem run_getRuns (client : Client) {runs : List (List (String × Item))}
    (hruns : ∀ run ∈ runs, run ≠ [] ∧ Allowed (byTable run))
    (hcan : ∀ run ∈ runs, client.CanRead session.store (byTable run))
    (hheld : ∀ request ∈ runs.flatten, request.1 ∈ Entries.names held)
    (hattempts : ∀ limit, client.config.retry.maxAttempts = some limit →
      session.store.unprocessedRounds < max limit 1) :
    ∃ later last calls, (runs.foldlM client.getRun held).run.run session = (.ok later, last) ∧
      client.ReadsKeys (fun name => requestsFor name runs.flatten) held later session.store
        last.store calls := by
  induction runs generalizing session held with
  | nil =>
    exact ⟨held, session, [], rfl, .none client _ held, .done (.refl _), rfl, Nat.le_refl _, by simp⟩
  | cons run rest ih =>
    have hgathers := Batch.gathers_byTable run
    obtain ⟨hne, hallowed⟩ := hruns run List.mem_cons_self
    obtain ⟨between, middle, calls, hrun, hreads⟩ := @run_getChunk session (byTable run) held client
      (session.store.unprocessedRounds + 1) 1 hallowed (Batch.byTable_ne_nil hne)
      (hcan run List.mem_cons_self)
      (by
        intro group hmem
        obtain ⟨key, hkey⟩ := List.exists_mem_of_ne_nil _ (hgathers.nonempty group hmem)
        exact hheld (group.1, key)
          (List.mem_append_left _ (Batch.mem_of_mem_byTable hmem hkey)))
      (Nat.lt_succ_self _)
      (by
        intro limit hlimit
        have hless := hattempts limit hlimit
        omega)
    have hget : (client.getRun held run).run.run session = (.ok between, middle) := by
      have hbound : callBound.run.run session =
          (.ok (session.store.unprocessedRounds + 1), session) := rfl
      rw [getRun, run_bind_of_ok hbound, hrun]
    obtain ⟨later, last, more, hrest, hrestReads⟩ := @ih middle between
      (fun other hmem => hruns other (List.mem_cons_of_mem _ hmem))
      (fun other hmem => (hcan other (List.mem_cons_of_mem _ hmem)).of_tables_eq hreads.tables)
      (fun request hmem => by
        rw [hreads.gains.names]
        exact hheld request (List.mem_append_right _ hmem))
      fun limit hlimit => Nat.lt_of_le_of_lt hreads.rounds (hattempts limit hlimit)
    refine ⟨later, last, calls ++ more, ?_, ?_⟩
    · change (client.getRun held run >>= fun held => rest.foldlM client.getRun held).run.run session = _
      rw [run_bind_of_ok hget, hrest]
    · have hsplit : (fun name => requestsFor name (run :: rest).flatten) = fun name =>
          under (byTable run) name ++ requestsFor name rest.flatten := by
        funext name
        rw [List.flatten_cons, Batch.requestsFor_append, hgathers.under]
      rw [hsplit]
      exact hreads.trans hrestReads

/-! ### Reading a batch -/

variable {items : List (String × List RecordKey)} {keys : List (String × Item)}

theorem canRead_byTable (hserves : store.Serves client.registry)
    (hcurrent : store.IsCurrent client.registry) (hkeys : client.batchKeys items = .ok keys)
    {run : List (String × Item)} (hrun : ∀ request ∈ run, request ∈ keys) :
    client.CanRead store (byTable run) := by
  rintro ⟨name, wanted⟩ hmem
  have hrequest : ∀ key ∈ wanted, ∃ table, client.table name = .ok table ∧
      requests table items key = true := fun key hkey =>
    (mem_batchKeys hkeys).mp (hrun _ (Batch.mem_of_mem_byTable hmem hkey))
  obtain ⟨first, hfirst⟩ :=
    List.exists_mem_of_ne_nil _ ((Batch.gathers_byTable run).nonempty _ hmem)
  obtain ⟨table, htable, _⟩ := hrequest first hfirst
  have hname := Registry.name_of_requireTable htable
  have htables : table ∈ client.registry.tables := Registry.mem_of_requireTable htable
  obtain ⟨stored, hstored, hstoredKeys⟩ := hserves table htables
  have hall := hcurrent table htables
  rw [hname] at hstored hall
  refine ⟨table, stored, htable, hstored, fun key hkey => ?_, ?_⟩
  · obtain ⟨other, hother, hrequested⟩ := hrequest key hkey
    cases htable.symm.trans hother
    obtain ⟨_, _, _, recordKey, _, hencode⟩ := requests_iff.mp hrequested
    rw [hstoredKeys]
    exact KeySchema.keyOf?_toItem hencode
  · rw [Store.items, hstored] at hall
    exact hall

/-- What a batch of keys comes to: for every table, in some order, the records of the items whose
keys were requested, each once. -/
structure BatchReads (client : Client) (items : List (String × List RecordKey))
    (records : List (String × List Record)) (store last : Store)
    (calls : List (List (String × List Item))) : Prop where
  names : Entries.names records = Entries.names items
  reads : ∀ name ∈ Entries.names items, ∃ (table : TableSchema) (stored : StoredTable)
    (listing : List Item) (found : List Record), client.table name = .ok table ∧ store.table? name = some stored ∧
      listing.Perm (stored.items.filter fun item =>
        (stored.keys.keyOf? item).any (requests table items)) ∧
      listing.mapM (Record.ofItem table) = .ok found ∧ Entries.find? records name = some found
  tables : last.tables = store.tables
  fetched : Store.Fetched calls store last
  fetches : last.fetches = store.fetches ++ calls.map Store.fetchCall
  allowed : ∀ groups ∈ calls, Allowed groups

theorem batchReads_of_readsKeys {records : List (String × List Record)}
    {calls : List (List (String × List Item))} (hserves : store.Serves client.registry)
    (hkeyed : store.Keyed) (hkeys : client.batchKeys items = .ok keys)
    (hreads : client.ReadsKeys (fun name => requestsFor name keys)
      (items.map fun (table, _) => (table, [])) records store last calls) :
    client.BatchReads items records store last calls := by
  have hnames : Entries.names records = Entries.names items := by
    rw [hreads.gains.names]
    simp [Entries.names]
  refine ⟨hnames, fun name hmem => ?_, hreads.tables, hreads.fetched, hreads.fetched.fetches_eq,
    hreads.allowed⟩
  obtain ⟨table, htable⟩ := exists_table_of_batchKeys hkeys name hmem
  have hname := Registry.name_of_requireTable htable
  obtain ⟨stored, hstored, _⟩ := hserves table (Registry.mem_of_requireTable htable)
  subst hname
  obtain ⟨found, hfound, hadded⟩ := hreads.gains.added table.name
  have hbound : store.bound table.name = stored.contents := by
    funext key
    rw [Store.bound, hstored]
    rfl
  have hrecordOf : client.recordOf table.name = Record.ofItem table := by
    funext item
    rw [recordOf, htable]
    rfl
  rw [hbound, hrecordOf] at hfound
  refine ⟨table, stored, _, found, htable, hstored, ?_, hfound, ?_⟩
  · have hperm := (hkeyed.table hstored).perm_contents
      (Batch.nodup_requestsFor (nodup_batchKeys hkeys) table.name)
    rwa [contains_requestsFor hkeys htable] at hperm
  · have hnone : under (items.map fun (table, _) => (table, ([] : List Record))) table.name = [] := by
      unfold under
      rw [Entries.find?_map (fun _ => ([] : List Record))]
      cases Entries.find? items table.name <;> rfl
    rw [hnone, List.nil_append] at hadded
    rw [← hnames] at hmem
    obtain ⟨held, hheld⟩ := Option.ne_none_iff_exists'.mp (Entries.mem_names_iff.mp hmem)
    rw [under, hheld] at hadded
    rw [hheld, ← hadded]
    rfl

theorem exists_readsKeys (hserves : session.store.Serves client.registry)
    (hcurrent : session.store.IsCurrent client.registry) (hkeys : client.batchKeys items = .ok keys)
    (hattempts : ∀ limit, client.config.retry.maxAttempts = some limit →
      session.store.unprocessedRounds < max limit 1) :
    ∃ records last calls, (client.batchGet items).run.run session = (.ok records, last) ∧
      client.ReadsKeys (fun name => requestsFor name keys) (items.map fun (table, _) => (table, []))
        records session.store last.store calls := by
  have hcut := Batch.cut_chunks (by decide : 0 < maxBatchKeys) keys
  have hnodup : ∀ run ∈ chunks maxBatchKeys keys, run.Nodup := by
    have hall := nodup_batchKeys hkeys
    rw [← hcut.flatten] at hall
    exact (List.nodup_flatten.mp hall).1
  have hmem : ∀ run ∈ chunks maxBatchKeys keys, ∀ request ∈ run, request ∈ keys := by
    intro run hrun request hrequest
    rw [← hcut.flatten]
    exact List.mem_flatten_of_mem hrun hrequest
  obtain ⟨records, last, calls, hrun, hreads⟩ := @run_getRuns session
    (items.map fun (table, _) => (table, [])) client (chunks maxBatchKeys keys)
    (fun run hrun => ⟨List.length_pos_iff.mp (hcut.bounded run hrun).1,
      Batch.allowed_byTable (hnodup run hrun) (hcut.bounded run hrun).2⟩)
    (fun run hrun => canRead_byTable hserves hcurrent hkeys (hmem run hrun))
    (by
      intro request hrequest
      rw [hcut.flatten] at hrequest
      obtain ⟨table, htable, hrequested⟩ := (mem_batchKeys hkeys).mp hrequest
      obtain ⟨entry, hentry, hname, _⟩ := requests_iff.mp hrequested
      rw [Registry.name_of_requireTable htable] at hname
      simp only [Entries.names, List.map_map]
      exact List.mem_map.mpr ⟨entry, hentry, hname⟩) hattempts
  rw [hcut.flatten] at hreads
  refine ⟨records, last, calls, ?_, hreads⟩
  rw [batchGet, run_bind_of_ok ((run_except _ _).trans (congrArg (·, session) hkeys))]
  exact hrun

/-- A batch whose keys all encode reads the items under the keys, each of them once. -/
theorem batchGet_reads_each_once
    (hserves : session.store.Serves client.registry) (hkeyed : session.store.Keyed)
    (hcurrent : session.store.IsCurrent client.registry)
    (hkeys : client.batchKeys items = .ok keys)
    (hattempts : ∀ limit, client.config.retry.maxAttempts = some limit →
      session.store.unprocessedRounds < max limit 1) :
    ∃ records last calls, (client.batchGet items).run.run session = (.ok records, last) ∧
      client.BatchReads items records session.store last.store calls := by
  obtain ⟨records, last, calls, hrun, hreads⟩ := exists_readsKeys hserves hcurrent hkeys hattempts
  exact ⟨records, last, calls, hrun, batchReads_of_readsKeys hserves hkeyed hkeys hreads⟩

/-- A stock of two articles, whose next batch call leaves something unread. -/
def countedStore : Store where
  tables := [("stock", ⟨⟨"id", none⟩, [], [[("_v", .number "1"), ("id", .string "a")],
    [("_v", .number "1"), ("amount", .number "3"), ("id", .string "b")]], 1⟩)]
  calls := []
  unprocessedRounds := 1

def countedKeys : List (String × List RecordKey) :=
  [("stock", [⟨.string "b", none⟩, ⟨.string "c", none⟩, ⟨.string "b", none⟩, ⟨.string "a", none⟩])]

/-- Two of the three keys are read in a round of their own. -/
theorem batchGet_reads_each_once_stock :
    countedStore.Serves stockClient.registry ∧ countedStore.Keyed ∧
      countedStore.IsCurrent stockClient.registry ∧
      stockClient.batchKeys countedKeys = .ok [("stock", [("id", .string "b")]),
        ("stock", [("id", .string "c")]), ("stock", [("id", .string "a")])] ∧
      ∃ records last calls,
        (stockClient.batchGet countedKeys).run.run (.start countedStore) = (.ok records, last) ∧
          stockClient.BatchReads countedKeys records countedStore last.store calls := by
  have hserves : countedStore.Serves stockClient.registry := by
    intro table hmem
    cases List.mem_singleton.mp hmem
    exact ⟨_, rfl, rfl⟩
  have hitem : ∀ item ∈ countedStore.items "stock", item = [("_v", .number "1"), ("id", .string "a")] ∨
      item = [("_v", .number "1"), ("amount", .number "3"), ("id", .string "b")] := by
    simp [countedStore, Store.items, Store.table?, Entries.find?]
  have hkeyed : countedStore.Keyed := by
    intro entry hmem
    cases List.mem_singleton.mp hmem
    refine ⟨fun item hmem => ?_, by decide⟩
    rcases hitem item hmem with rfl | rfl <;> exact ⟨_, rfl⟩
  have hcurrent : countedStore.IsCurrent stockClient.registry := by
    intro table hmem item hheld
    cases List.mem_singleton.mp hmem
    rcases hitem item hheld with rfl | rfl <;> exact ⟨⟨some 1, rfl, rfl⟩, ⟨_, rfl⟩⟩
  exact ⟨hserves, hkeyed, hcurrent, rfl,
    @batchGet_reads_each_once stockClient (.start countedStore) countedKeys _ hserves hkeyed hcurrent
      rfl fun limit hlimit => by cases hlimit⟩

end Client

end RecordStore
