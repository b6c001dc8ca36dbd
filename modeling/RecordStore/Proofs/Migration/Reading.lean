import RecordStore.Client.Transaction
import RecordStore.Proofs.Batch.Fetch
import RecordStore.Proofs.Batch.Encode
import RecordStore.Proofs.Client.Search
import RecordStore.Proofs.Migration.Decode
import RecordStore.Proofs.Migration.WriteBack
import RecordStore.Proofs.Schema.Registry
import RecordStore.Proofs.Store.Reachable
import RecordStore.Proofs.Store.Rewriting

/-!
# Reads that migrate

A read changes a table only by storing records again that it has migrated. Reads of projections, of
indexes and within transactions never do so. Between the calls of a read the items of a table are
those that it began with and those that were stored again, which are at the version of the table.
-/

namespace RecordStore

open Expression (Fault)

/-! ### What reads receive -/

namespace Client

/-- A page that is read from a session holds an item, one of at most so many pages that are read
after one another. -/
inductive PagesHold (client : Client) (table : TableSchema) (writesBack : Bool)
    (isDone : List Nat → Bool) (item : Item) : Nat → PagedRequest → Records → Session → Prop where
  | here {bound : Nat} {request : PagedRequest} {held : Records} {session ready later : Session}
    {answer : PageAnswer}
    (hready : (client.acquire ⟨table.name, request.read.index, .read⟩).run.run session =
      (.ok (), ready))
    (hanswer : (Session.call request.send).run.run ready = (.ok answer, later))
    (hitem : item ∈ answer.page.items) :
    PagesHold client table writesBack isDone item (bound + 1) request held session
  | later {bound : Nat} {request : PagedRequest} {held read : Records} {session later : Session}
    {key : Item}
    (hpage : (client.readPage table writesBack request held).run.run session = (.ok read, later))
    (hkey : read.lastKey = some key) (hmore : isDone read.progress = false)
    (hrest : PagesHold client table writesBack isDone item bound (request.startingAfter key) read
      later) :
    PagesHold client table writesBack isDone item (bound + 1) request held session

/-- A call for a group of keys answers an item of a table, one of at most so many calls that are made
until no key of the group is left. -/
inductive CallsAnswer (client : Client) (name : String) (item : Item) :
    Nat → Nat → List (String × List Item) → List (String × List Record) → Session → Prop where
  | here {bound attempt : Nat} {groups : List (String × List Item)}
    {held : List (String × List Record)} {session ready later : Session} {answer : BatchGetAnswer}
    {response : String × List Item}
    (hready : (client.acquireAll .read (Entries.names groups)).run.run session = (.ok (), ready))
    (hanswer : (Session.call (Store.batchGet (Store.keyRequests groups) true)).run.run ready =
      (.ok answer, later))
    (hresponse : response ∈ answer.responses) (hname : response.1 = name)
    (hitem : item ∈ response.2) :
    CallsAnswer client name item (bound + 1) attempt groups held session
  | later {bound attempt : Nat} {groups left : List (String × List Item)}
    {held read : List (String × List Record)} {session ready called recorded loaded later : Session}
    {answer : BatchGetAnswer}
    (hready : (client.acquireAll .read (Entries.names groups)).run.run session = (.ok (), ready))
    (hanswer : (Session.call (Store.batchGet (Store.keyRequests groups) true)).run.run ready =
      (.ok answer, called))
    (hrecorded : (Session.recordAll .read answer.capacities).run.run called = (.ok (), recorded))
    (hloaded : (answer.responses.foldlM client.loadTable held).run.run recorded = (.ok read, loaded))
    (hleft : answer.unprocessed.map (fun (table, request) => (table, request.keys)) = left)
    (hwaited : (client.awaitRetry attempt (Entries.count left)).run.run loaded = (.ok (), later))
    (hrest : CallsAnswer client name item bound (attempt + 1) left read later) :
    CallsAnswer client name item (bound + 1) attempt groups held session

/-- A call for one of some groups of keys answers an item of a table. -/
inductive ChunksAnswer (client : Client) (name : String) (item : Item) :
    List (List (String × Item)) → List (String × List Record) → Session → Prop where
  | here {chunk : List (String × Item)} {rest : List (List (String × Item))}
    {held : List (String × List Record)} {session : Session}
    (hcalls : client.CallsAnswer name item (session.store.unprocessedRounds + 1) 1
      (Batch.byTable chunk) held session) :
    ChunksAnswer client name item (chunk :: rest) held session
  | later {chunk : List (String × Item)} {rest : List (List (String × Item))}
    {held read : List (String × List Record)} {session later : Session}
    (hchunk : (client.getChunk (session.store.unprocessedRounds + 1) 1 (Batch.byTable chunk)
      held).run.run session = (.ok read, later))
    (hrest : ChunksAnswer client name item rest read later) :
    ChunksAnswer client name item (chunk :: rest) held session

end Client

/-- A request for records. -/
inductive RecordRead where
  | get (request : RecordGet)
  | search (wanted : Search)
  | batch (items : List (String × List RecordKey))
  | transact (gets : List RecordGet)

namespace RecordRead

/-- Sends a request and drops what it answers. -/
def send (client : Client) : RecordRead → SessionCall Unit
  | .get request => do let _ ← client.get request
  | .search wanted => do let _ ← wanted.send client wanted.common.isDone
  | .batch items => do let _ ← client.batchGet items
  | .transact gets => do let _ ← client.transactGet gets

/-- Whether a request may store what it migrates: it reads whole items, from the tables themselves
and outside of transactions. -/
def writesBack : RecordRead → Bool
  | .get request => request.projection.isEmpty
  | .search wanted => wanted.common.writesBack
  | .batch _ => true
  | .transact _ => false

/-- The store answers an item of a table in the course of a read outside of transactions. -/
inductive Receives (client : Client) (name : String) (item : Item) : RecordRead → Session → Prop where
  | get {request : RecordGet} {table : TableSchema} {asked : GetRequest} {session later : Session}
    (htable : client.table request.table = .ok table) (hname : request.table = name)
    (hasked : request.request table = .ok asked)
    (hfound : (client.callWithKey ⟨table.name, none, .read⟩ (asked.key.getD [])
      (Store.getItem asked)).run.run session = (.ok (some item), later)) :
    Receives client name item (.get request) session
  | search {wanted : Search} {table : TableSchema} {request : PagedRequest} {session : Session}
    (htable : client.table wanted.common.table = .ok table) (hname : wanted.common.table = name)
    (hasked : wanted.request table = .ok request)
    (hpages : client.PagesHold table wanted.common.writesBack wanted.common.isDone item
      (2 * (session.store.items table.name).length + 2) request .none session) :
    Receives client name item (.search wanted) session
  | batch {items : List (String × List RecordKey)} {keys : List (String × Item)} {session : Session}
    (hkeys : client.batchKeys items = .ok keys)
    (hchunks : client.ChunksAnswer name item (Batch.chunks maxBatchKeys keys)
      (items.map fun (table, _) => (table, [])) session) :
    Receives client name item (.batch items) session

/-- An item is made from a stale one that a read receives from a table that migrates: the stale item
is upgraded and read, and its record is encoded as a save encodes it. -/
structure Restores (client : Client) (read : RecordRead) (start : Session) (name : String)
    (source item : Item) : Prop where
  plain : read.writesBack = true
  allowed : client.config.writesBack = true
  received : read.Receives client name source start
  migrates : ∃ table version upgraded record, client.table name = .ok table ∧
    table.migrationsEnabled = true ∧ table.StoredAt source version ∧ version < table.version ∧
    (upgrade table (client.registry.migrationsOf table.name)).run.run source =
      (.ok (.migrated version), upgraded) ∧
    Record.ofItem table upgraded = .ok record ∧
    (PreparedPut.advance table record true).toItem table = .ok item

/-- What a read may leave in a table: what it makes from the items that were there. -/
def Leaves (client : Client) (read : RecordRead) (start : Session) (name : String)
    (stored : StoredTable) (item : Item) : Prop :=
  ∃ source ∈ stored.items, read.Restores client start name source item

/-- A store in the course of a read: what it began with, but for what the read stored again. -/
abbrev Rewrites (client : Client) (read : RecordRead) (start : Session) (store : Store) : Prop :=
  start.store.Rewritten (read.Leaves client start) store

/-- A session in the course of a read. -/
abbrev Keeps (client : Client) (read : RecordRead) (start session : Session) : Prop :=
  read.Rewrites client start session.store

/-- An item that a table holds in the course of a read. -/
def Present (client : Client) (read : RecordRead) (start : Session) (name : String) (item : Item) :
    Prop :=
  ∃ before, start.store.table? name = some before ∧
    (item ∈ before.items ∨ read.Leaves client start name before item)

variable {client : Client} {read : RecordRead} {start : Session} {table : TableSchema} {name : String}
  {item : Item}

/-! ### What every call keeps -/

theorem rewrites_of_described {store later : Store} (hdescribed : store.Described later)
    (hrewrites : read.Rewrites client start store) : read.Rewrites client start later :=
  hrewrites.of_tables_eq hdescribed.tables

/-! ### Loading what was received -/

theorem keeps_load_unwritten (table : TableSchema) (item : Item) :
    Preserves (Keeps client read start) (client.load table false item) := by
  intro session hkeeps
  rw [Client.run_load_unwritten]
  exact hkeeps

/-- What was stored again is not migrated another time. -/
theorem isMigrated_of_restores {source : Item} {loaded : Loaded}
    (htables : Registry.Tables client.registry.tables) (htable : client.table name = .ok table)
    (hrestores : read.Restores client start name source item)
    (hdecode : client.decode table item = .ok loaded) : loaded.isMigrated = false := by
  obtain ⟨other, _, _, record, hother, _, _, _, _, _, hitem⟩ := hrestores.migrates
  cases htable.symm.trans hother
  have haccepted := htables.accepted table (Registry.mem_of_requireTable htable)
  have hstored := TableSchema.storedAt_of_get? (Record.get?_version_toItem haccepted hitem)
  obtain ⟨outcome, upgraded, hupgrade, _, hmigrated⟩ := Client.exists_upgraded hdecode
  rw [run_upgrade_current hstored] at hupgrade
  cases hupgrade
  rw [← Bool.not_eq_true]
  intro htrue
  obtain ⟨_, hcurrent⟩ := hmigrated htrue
  cases hcurrent

/-- Loading an item that the read received stores its record again at most. -/
theorem keeps_load (htables : Registry.Tables client.registry.tables)
    (hserves : start.store.Serves client.registry) (hplain : read.writesBack = true)
    (htable : client.table name = .ok table) (hpresent : read.Present client start name item)
    (hreceived : read.Receives client name item start) (writesBack : Bool) :
    Preserves (Keeps client read start) (client.load table writesBack item) := by
  obtain rfl := Registry.name_of_requireTable htable
  have hmem : table ∈ client.registry.tables := Registry.mem_of_requireTable htable
  obtain ⟨stored, hstored, hkeys⟩ := hserves table hmem
  have haccepted := htables.accepted table hmem
  cases hdecode : client.decode table item with
  | error error =>
    rw [Client.load, hdecode]
    exact .throw error
  | ok loaded =>
    have hload : client.load table writesBack item = (if loaded.isMigrated && writesBack &&
        client.config.writesBack then client.writeBack table loaded.record
        else pure loaded.record) := by
      rw [Client.load, hdecode]
      rfl
    rw [hload]
    split
    · rename_i hwrites
      simp only [Bool.and_eq_true] at hwrites
      obtain ⟨⟨hmigrated, _⟩, hallowed⟩ := hwrites
      obtain ⟨before, hbefore, hheld | ⟨source, _, hrestores⟩⟩ := hpresent
      · cases hstored.symm.trans hbefore
        obtain ⟨outcome, upgraded, hupgrade, hread, hstale⟩ := Client.exists_upgraded hdecode
        obtain ⟨version, rfl⟩ := hstale hmigrated
        obtain ⟨henabled, hversion, hless⟩ := migrated_of_upgrade hupgrade
        refine .tryCatch (.of_run fun session outcome later hkeeps hrun => ?_) fun error => ?_
        · obtain ⟨after, hafter, hboth⟩ := hkeeps.exists_after hstored
          have hholds : session.store.Holds table after := ⟨hafter, hboth.keys.trans hkeys⟩
          have hends := Client.putEnds_of_run (client.ready_of_table hafter) hrun
          rcases hends.stores haccepted hholds with
            ⟨_, hsame⟩ | ⟨_, written, key, hwritten, _, hkey, htablesAfter⟩
          · exact hkeeps.of_tables_eq hsame
          · refine (hkeeps.setTable hafter hkey fun before hbefore => ?_).of_tables_eq htablesAfter
            cases hstored.symm.trans hbefore
            exact ⟨item, hheld, hplain, hallowed, hreceived, table, version, upgraded,
              loaded.record, htable, henabled, hversion, hless, hupgrade, hread, hwritten⟩
        · split
          · exact .pure _
          · exact .throw _
      · rw [isMigrated_of_restores htables htable hrestores hdecode] at hmigrated
        cases hmigrated
    · exact .pure _

/-! ### Reading by keys -/

theorem present_of_mem {before after : StoredTable} (hbefore : start.store.table? name = some before)
    (hboth : before.Rewritten (read.Leaves client start name before) after)
    (hmem : item ∈ after.items) : read.Present client start name item :=
  ⟨before, hbefore, hboth.mem hmem⟩

/-- A table that is asked for whole items answers items that it holds. -/
theorem yields_getItem {request : GetRequest} (hwhole : request.projection = none) :
    Yields (read.Rewrites client start)
      (fun answer => ∀ item, answer.item = some item →
        read.Present client start request.table item) (Store.getItem request) := by
  unfold Store.getItem
  refine (Yields.of_preserves (Store.preserves_record Store.rewritten_recorded _ _ _)).bind fun _ _ =>
    ?_
  refine (Store.yields_requireTable _ _).bind fun after ⟨before, hbefore, hboth⟩ => ?_
  refine (Store.yields_checked _ _).bind fun exact hexact => ?_
  refine (Store.yields_checked _ _).bind fun found hread => .pure fun item hitem => ?_
  rw [hwhole] at hread
  cases hfind : after.find? exact with
  | none =>
    rw [hfind] at hread
    cases hread
    cases hitem
  | some held =>
    rw [hfind] at hread
    cases hread
    cases hitem
    exact present_of_mem hbefore hboth (StoredTable.mem_of_find? hfind)

theorem request_ok {get : RecordGet} {request : GetRequest} (hrequest : get.request table = .ok request) :
    request.table = table.name ∧ (get.projection = [] → request.projection = none) := by
  obtain ⟨key, _, hrequest⟩ := bind_eq_ok_iff.mp hrequest
  obtain ⟨⟨⟨⟩, builder⟩, hbuilt, hdone⟩ := bind_eq_ok_iff.mp hrequest
  cases hdone
  refine ⟨rfl, fun hwhole => ?_⟩
  rw [hwhole] at hbuilt
  cases hbuilt
  rfl

theorem keeps_get (htables : Registry.Tables client.registry.tables)
    (hserves : start.store.Serves client.registry) (request : RecordGet) :
    Keeps client (.get request) start ((client.get request).run.run start).2 := by
  have hstart : Keeps client (.get request) start start := .refl _ _
  unfold Client.get
  refine Yields.bind_run (.of_preserves (.lift _)) hstart fun table later hread _ _ => ?_
  obtain ⟨htable, hsame⟩ := run_except_ok hread
  subst later
  refine Yields.bind_run (.of_preserves (.lift _)) hstart fun asked later hbuild _ _ => ?_
  obtain ⟨hasked, hsame⟩ := run_except_ok hbuild
  subst later
  obtain ⟨hname, hnone⟩ := request_ok hasked
  by_cases hwhole : request.projection = []
  · have hplain : (RecordRead.get request).writesBack = true := by
      simp [writesBack, hwhole]
    refine Yields.bind_run (Client.yields_callWithKey rewrites_of_described
      (yields_getItem (hnone hwhole))) hstart
      fun found later hfound hpresent hkeeps => ?_
    cases found with
    | none => exact hkeeps
    | some item =>
      have hitem := hpresent item rfl
      rw [hname, Registry.name_of_requireTable htable] at hitem
      exact (keeps_load htables hserves hplain htable hitem (.get htable rfl hasked hfound) _).bind
        (fun _ => .pure _) later hkeeps
  · have hcall : Yields (Rewrites client (.get request) start)
        (fun answer => ∀ item : Item, answer.item = some item → True) (Store.getItem asked) :=
      (Yields.of_preserves (Store.preserves_getItem Store.rewritten_recorded asked)).mono
        fun _ _ _ _ => trivial
    refine Yields.bind_run (Client.yields_callWithKey rewrites_of_described hcall) hstart fun found later _ _ hkeeps => ?_
    cases found with
    | none => exact hkeeps
    | some item =>
      rw [show request.projection.isEmpty = false by simpa using hwhole]
      exact (keeps_load_unwritten table item).bind (fun _ => .pure _) later hkeeps

/-! ### Reading in transactions -/

theorem keeps_transactGet (gets : List RecordGet) :
    Preserves (Keeps client read start) (client.transactGet gets) := by
  unfold Client.transactGet
  split
  · exact .pure _
  · refine (Preserves.lift _).bind fun parts => ?_
    refine (Session.preserves_of_described rewrites_of_described fun store =>
      Session.described_acquireAll client.config.limits .read _).bind fun _ => ?_
    refine (Session.preserves_call
      (Store.preserves_transactGet Store.rewritten_recorded _)).bind fun found => ?_
    refine .mapM fun entry => ?_
    obtain ⟨get, found⟩ := entry
    dsimp only
    unfold Client.loadFound
    split
    · exact .pure _
    · exact .pure _
    · refine (Preserves.lift _).bind fun table => ?_
      exact (keeps_load_unwritten table _).bind fun _ => .pure _

end RecordRead

end RecordStore
