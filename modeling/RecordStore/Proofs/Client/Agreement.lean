import RecordStore.Client.Transaction
import RecordStore.Proofs.Batch.Read
import RecordStore.Proofs.Client.History
import RecordStore.Proofs.Client.Search
import RecordStore.Proofs.Codec.KeyMatch
import RecordStore.Proofs.Store.FiniteMap

/-!
# Agreement of reads

A record can be read by its key, in a batch, in a transaction, and by a query for the key. All of
these come to what the table binds to the key: the item that was last put under it and not deleted
since.
-/

namespace RecordStore

open Batch (requestsFor)
open Client (Pages)
open StoredTable (IsLimit)

variable {client : Client} {session : Session} {store : Store} {table : TableSchema}
  {stored : StoredTable} {key : RecordKey} {whole : Item} {found : Option Record}

/-! ### Looking up a key -/

theorem filterMap_singleton {α β : Type} (change : α → Option β) (value : α) :
    [value].filterMap change = (change value).toList := by
  cases hchange : change value <;> simp [hchange]

theorem mapM_toList {ε α β : Type} {change : α → Except ε β} {value : Option α} {result : Option β}
    (hchange : value.mapM change = .ok result) :
    value.toList.mapM change = .ok result.toList := by
  cases value with
  | none =>
    cases hchange
    rfl
  | some value =>
    obtain ⟨changed, hchanged, rfl⟩ := map_eq_ok_iff.mp hchange
    rw [Option.toList_some, List.mapM_cons, hchanged]
    rfl

/-- What there is to read under a key: a table that binds an item to the key, or none, and the
record that the item is read as. -/
structure Client.Lookup (client : Client) (session : Session) (table : TableSchema)
    (stored : StoredTable) (key : RecordKey) (whole : Item) (found : Option Record) : Prop where
  known : client.table table.name = .ok table
  held : session.store.table? table.name = some stored
  named : stored.keys = .ofSchema table.keys
  encodes : table.keys.toItem key = .ok whole
  current : ∀ item ∈ stored.items, table.Current item
  reads : (stored.contents whole).mapM (Record.ofItem table) = .ok found

theorem RecordGet.exists_request (name : String) (hkey : table.keys.toItem key = .ok whole) :
    ∃ request, (RecordGet.mk name key []).request table = .ok request ∧
      request.table = table.name ∧ request.key = some whole ∧ request.projection = none := by
  rw [RecordGet.request, hkey]
  exact ⟨_, rfl, rfl, rfl, rfl⟩

/-- A get of a whole key answers what the projection shows of what the table binds to it. -/
theorem Store.run_getItem {request : GetRequest} {shown : Option Item}
    (hheld : store.table? request.table = some stored) (hkey : request.key = some whole)
    (hwhole : stored.keys.keyOf? whole = some whole)
    (hshown : ((stored.contents whole).mapM fun item =>
      Expression.projectItem item request.projection ⟨request.names.getD [], []⟩) = .ok shown) :
    ∃ capacity, ((getItem request).run.run store).1 = .ok ⟨shown, capacity⟩ := by
  have hends := ends_getItem store request
  generalize (getItem request).run.run store = ended at hends
  have hexact : stored.exactKey (request.key.getD []) = .ok whole := by
    rw [hkey]
    exact StoredTable.exactKey_of_keyOf? hwhole
  cases hends with
  | found htable hfound hitem =>
    cases hheld.symm.trans htable
    cases hexact.symm.trans hfound
    cases hshown.symm.trans hitem
    exact ⟨_, rfl⟩
  | wrongKey htable hfault =>
    cases hheld.symm.trans htable
    cases hexact.symm.trans hfault
  | unprojected htable hfound hbound hfault =>
    cases hheld.symm.trans htable
    cases hexact.symm.trans hfound
    rw [hbound, Option.mapM_some, hfault] at hshown
    cases hshown
  | missing hmissing => cases hheld.symm.trans hmissing

/-- The only get of a transaction answers what the table binds to its key. -/
theorem Store.run_transactGet {name : String} (names : Option (List (String × String)))
    (hheld : store.table? name = some stored) (hwhole : stored.keys.keyOf? whole = some whole) :
    ∃ later, (transactGet [some ⟨name, whole, none, names⟩]).run.run store =
      (.ok [stored.contents whole], later) := by
  let context := RequestContext.ofTables [name]
  let later := store.recorded .transactGetItems context.table
  have hrecord : (record .transactGetItems context.table 1).run.run store = (.ok (), later) := rfl
  have hread : (requireTable name context).run.run later = (.ok stored, later) :=
    run_requireTable context ((table?_recorded store _ _ name).trans hheld)
  have hone : (transactGetOne context (some (.mk name whole none names))).run.run later =
      (.ok (stored.contents whole), later) := by
    unfold transactGetOne
    rw [run_bind_of_ok hread, StoredTable.exactKey_of_keyOf? hwhole,
      run_bind_of_ok (run_checked _ _ _), StoredTable.find?_eq_contents hwhole]
    cases stored.contents whole <;> rfl
  refine ⟨later, ?_⟩
  change (do
    record .transactGetItems context.table 1
    [some (TransactGet.mk name whole none names)].mapM (transactGetOne context)).run.run store = _
  rw [run_bind_of_ok hrecord, List.mapM_cons, run_bind_of_ok hone]
  rfl

/-- A get loads what is shown of what the table binds to its key. -/
theorem Client.run_get_request {names : List String} {request : GetRequest} {shown : Option Item}
    (hknown : client.table table.name = .ok table)
    (hheld : session.store.table? table.name = some stored)
    (hrequest : (RecordGet.mk table.name key names).request table = .ok request)
    (hname : request.table = table.name) (hkey : request.key = some whole)
    (hwhole : stored.keys.keyOf? whole = some whole)
    (hshown : ((stored.contents whole).mapM fun item =>
      Expression.projectItem item request.projection ⟨request.names.getD [], []⟩) = .ok shown) :
    ∃ later, (client.get ⟨table.name, key, names⟩).run.run session =
      (shown.mapM (client.load table names.isEmpty)).run.run later := by
  have hread := (run_except (client.table table.name) session).trans
    (congrArg (·, session) hknown)
  have hbuild := (run_except ((RecordGet.mk table.name key names).request table) session).trans
    (congrArg (·, session) hrequest)
  obtain ⟨between, hacquire, hdescribed⟩ :=
    @ready_of_table client ⟨table.name, none, .read⟩ session stored hheld
  have hfound : between.store.table? request.table = some stored := by
    rw [hname, hdescribed.table?_eq, hheld]
  obtain ⟨capacity, hanswer⟩ := Store.run_getItem hfound hkey hwhole hshown
  obtain ⟨later, hcall, _⟩ :=
    @run_callWithKey client _ whole session between (Store.getItem request) hacquire
  refine ⟨later, ?_⟩
  rw [hanswer] at hcall
  rw [Client.get, run_bind_of_ok hread, run_bind_of_ok hbuild, hkey, Option.getD_some,
    run_bind_of_ok hcall]

/-- A query for a declared key can be asked. -/
theorem RecordQuery.IsFor.exists_request {query : RecordQuery} (hfor : query.IsFor key)
    (hdeclares : table.DeclaresKey key) : ∃ request, query.request table = .ok request := by
  have hrange := hdeclares.range
  have hkeys : table.keysOf query.search.index = .ok table.keys := by
    rw [hfor.index]
    rfl
  rw [RecordQuery.request, hkeys, ok_bind, RecordQuery.keyCondition, RecordSearch.narrow, hfor.range,
    hfor.filter, hfor.projection]
  generalize table.keys.range = component at hrange ⊢
  generalize key.range = value at hrange ⊢
  cases hrange with
  | none => exact ⟨_, rfl⟩
  | some _ => exact ⟨_, rfl⟩

namespace Client.Lookup

variable (hlookup : client.Lookup session table stored key whole found)
include hlookup

theorem keyOf?_whole : stored.keys.keyOf? whole = some whole := by
  rw [hlookup.named]
  exact KeySchema.keyOf?_toItem hlookup.encodes

theorem current_of_bound {item : Item} (hbound : stored.contents whole = some item) :
    table.Current item :=
  hlookup.current item (List.mem_of_find?_eq_some hbound)

theorem run_load (writesBack : Bool) (later : Session) :
    ((stored.contents whole).mapM (client.load table writesBack)).run.run later =
      (.ok found, later) := by
  have hread := hlookup.reads
  cases hbound : stored.contents whole with
  | none =>
    rw [hbound] at hread
    cases hread
    rfl
  | some item =>
    rw [hbound] at hread
    obtain ⟨record, hrecord, hdone⟩ := map_eq_ok_iff.mp hread
    subst hdone
    rw [Option.mapM_some, run_map,
      Client.run_load (hlookup.current_of_bound hbound) hrecord writesBack later]
    rfl

theorem run_get :
    ∃ later, (client.get ⟨table.name, key, []⟩).run.run session = (.ok found, later) := by
  obtain ⟨request, hrequest, hname, hkey, hprojection⟩ :=
    RecordGet.exists_request table.name hlookup.encodes
  have hwhole : ((stored.contents whole).mapM fun item =>
      Expression.projectItem item request.projection ⟨request.names.getD [], []⟩) =
      .ok (stored.contents whole) := by
    rw [hprojection]
    cases stored.contents whole <;> rfl
  obtain ⟨later, hget⟩ := Client.run_get_request hlookup.known hlookup.held hrequest hname hkey
    hlookup.keyOf?_whole hwhole
  exact ⟨later, hget.trans (hlookup.run_load _ later)⟩

theorem run_batchGet (hserves : session.store.Serves client.registry)
    (hcurrent : session.store.IsCurrent client.registry)
    (hrounds : session.store.unprocessedRounds = 0) :
    ∃ later, (client.batchGet [(table.name, [key])]).run.run session =
      (.ok [(table.name, found.toList)], later) := by
  have hkeys : client.batchKeys [(table.name, [key])] = .ok [(table.name, whole)] := by
    simp only [batchKeys, List.mapM_cons, List.mapM_nil, hlookup.known, hlookup.encodes, ok_bind]
    rfl
  obtain ⟨records, later, _, hrun, hreads⟩ := exists_readsKeys hserves hcurrent hkeys
    fun limit _ => by omega
  obtain ⟨more, hmore, hadded⟩ := hreads.gains.added table.name
  have hwanted : requestsFor table.name [(table.name, whole)] = [whole] := by
    simp [requestsFor]
  have hbound : session.store.bound table.name whole = stored.contents whole := by
    rw [Store.bound, hlookup.held]
    rfl
  have hrecordOf : client.recordOf table.name = Record.ofItem table := by
    funext item
    rw [recordOf, hlookup.known]
    rfl
  have hfound : more = found.toList := by
    rw [hwanted, filterMap_singleton, hbound, hrecordOf] at hmore
    exact Except.ok.inj (hmore.symm.trans (mapM_toList hlookup.reads))
  obtain ⟨⟨_, held⟩, rfl, rfl⟩ := List.map_eq_singleton_iff.mp hreads.gains.names
  have hheld : held = found.toList := by
    simpa [Entries.under, Entries.find?_cons, hfound] using hadded
  exact ⟨later, by rw [hrun, hheld]⟩

theorem run_transactGet :
    ∃ later, (client.transactGet [⟨table.name, key, []⟩]).run.run session = (.ok [found], later) := by
  obtain ⟨request, hrequest, hname, hkey, hprojection⟩ :=
    RecordGet.exists_request table.name hlookup.encodes
  have hprepare : client.prepareGet ⟨table.name, key, []⟩ =
      .ok ⟨table.name, whole, none, request.names⟩ := by
    rw [prepareGet, hlookup.known, ok_bind, hrequest, ok_bind, hkey, hprojection]
    rfl
  have hparts : [(⟨table.name, key, []⟩ : RecordGet)].mapM client.prepareGet =
      .ok [⟨table.name, whole, none, request.names⟩] := by
    rw [List.mapM_cons, hprepare]
    rfl
  obtain ⟨between, hacquire, hdescribed⟩ := @Session.run_acquireAll session
    client.config.limits .read [table.name]
    fun name hmem => ⟨stored, List.mem_singleton.mp hmem ▸ hlookup.held⟩
  obtain ⟨left, hfound⟩ := Store.run_transactGet request.names
    ((hdescribed.table?_eq _).trans hlookup.held) hlookup.keyOf?_whole
  have hload : (client.loadFound table.name (stored.contents whole)).run.run
      { between with store := left } = (.ok found, { between with store := left }) := by
    have hread := hlookup.run_load false { between with store := left }
    cases hbound : stored.contents whole with
    | none =>
      rw [hbound] at hread
      exact hread
    | some item =>
      have hkey := StoredTable.keyOf?_of_contents hbound
      rw [hbound, Option.mapM_some] at hread
      cases item with
      | nil => cases hkey
      | cons => 
        have htable := (run_except (client.table table.name) { between with store := left }).trans
          (congrArg (·, { between with store := left }) hlookup.known)
        unfold loadFound
        rw [run_bind_of_ok htable]
        exact hread
  refine ⟨{ between with store := left }, ?_⟩
  change (do
    let parts ← (show SessionCall (List TransactGet) from
      ([(⟨table.name, key, []⟩ : RecordGet)].mapM client.prepareGet : Except Error _))
    client.acquireAll .read [table.name]
    let found ← Session.call (Store.transactGet (parts.map some))
    ([(⟨table.name, key, []⟩ : RecordGet)].zip found).mapM fun entry : RecordGet × Option Item =>
      client.loadFound entry.1.table entry.2).run.run session = _
  rw [run_bind_of_ok ((run_except _ _).trans (congrArg (·, session) hparts)), acquireAll,
    run_bind_of_ok hacquire, List.map_singleton, run_bind_of_ok (Session.run_call_eq hfound),
    List.zip_cons_cons, List.mapM_cons, run_bind_of_ok hload]
  rfl

/-- Of the items of a table a query for a declared key selects the one under the key. -/
theorem eq_of_selected {query : RecordQuery} {selected : List Item} (haccepted : table.Accepted)
    (hkeyed : stored.Keyed)
    (hencoded : ∀ item ∈ stored.items, ∃ record : Record, record.toItem table = .ok item)
    (hdeclares : table.DeclaresKey key) (hfor : query.IsFor key)
    (hperm : selected.Perm (stored.items.filter fun item =>
      StoredTable.hasAllKeys (.ofSchema table.keys) item && query.selects table.keys item)) :
    selected = (stored.contents whole).toList := by
  have hsame : (stored.items.filter fun item =>
      StoredTable.hasAllKeys (.ofSchema table.keys) item && query.selects table.keys item) =
      stored.items.filter fun item => (stored.keys.keyOf? item).any [whole].contains := by
    refine List.filter_congr fun item hmem => ?_
    obtain ⟨record, hrecord⟩ := hencoded item hmem
    have hiff := RecordQuery.selects_iff haccepted hfor.hash hfor.range hdeclares hlookup.encodes hrecord
    rw [hlookup.named]
    unfold StoredTable.hasAllKeys
    cases hkey : (KeyNames.ofSchema table.keys).keyOf? item with
    | none => rfl
    | some held =>
      rw [hkey, Option.some_inj] at hiff
      rw [Bool.eq_iff_iff]
      simpa using hiff
  have hone : selected.Perm (stored.contents whole).toList := by
    rw [hsame] at hperm
    have hbound := hkeyed.perm_contents (List.nodup_singleton whole)
    rw [filterMap_singleton] at hbound
    exact hperm.trans hbound.symm
  generalize stored.contents whole = bound at hone
  cases bound with
  | none => exact List.perm_nil.mp hone
  | some item => exact List.perm_singleton.mp hone

theorem run_query {query : RecordQuery} (haccepted : table.Accepted) (hkeyed : stored.Keyed)
    (hencoded : ∀ item ∈ stored.items, ∃ record : Record, record.toItem table = .ok item)
    (hdeclares : table.DeclaresKey key) (hname : query.search.table = table.name)
    (hfor : query.IsFor key) :
    ∃ read later, (client.query query).run.run session = (.ok read, later) ∧
      read.records = found.toList := by
  have hkeys : table.keysOf query.search.index = .ok table.keys := by
    rw [hfor.index]
    rfl
  obtain ⟨request, hrequest⟩ := hfor.exists_request hdeclares
  obtain ⟨paths, text, predicate, hasks, hasked, hforward, htext, hparse, hselects⟩ :=
    RecordQuery.asks_request hkeys hrequest
  have hwhole : paths = [] := by
    have hpaths := hasks.paths
    rw [hfor.projection] at hpaths
    cases hpaths with
    | whole => rfl
    | some hnames _ => exact absurd rfl hnames
  subst hwhole
  obtain ⟨selected, hselect, hperm⟩ :=
    @StoredTable.exists_select stored (.ofSchema table.keys) _ _ query.forward hselects
  have hselected : selected = (stored.contents whole).toList :=
    hlookup.eq_of_selected haccepted hkeyed hencoded hdeclares hfor hperm
  have hindex : stored.indexKeys request.read.page.index = .ok (.ofSchema table.keys) := by
    rw [hasks.index, hfor.index]
    exact congrArg Except.ok hlookup.named
  have hpages : Pages table stored selected (query.search.keeps table) (Item.shown [])
      (.query request) := by
    refine ⟨hasked, ?_, ?_, Search.reading_of_asks hasks⟩
    · change IsLimit request.read.page.limit
      rw [hasks.limit]
      exact hfor.limit
    · exact PagedRequest.candidates?_query hindex htext hparse (hforward ▸ hselect)
  have hfew : selected.length ≤ 1 := by
    rw [hselected]
    cases stored.contents whole <;> simp
  have hrun : (client.query query).run.run session = _ :=
    @Search.run_send client table (.query query) session (.query request) query.search.isDone
      (hname ▸ hlookup.known) (by rw [Search.request, hrequest]; rfl)
  have hsubperm : selected.Subperm stored.items := ⟨_, hperm.symm, List.filter_sublist⟩
  have hstart : (PagedRequest.query request).read.start = none := hasks.start.trans hfor.start
  obtain ⟨read, later, more, left, hread, hrest, hholds, hends⟩ :=
    @Client.run_readPages table client stored selected _ _ (hkeyed.distinct_of_subperm hsubperm)
      (fun item hmem => hlookup.current item (List.mem_of_mem_filter (hperm.mem_iff.mp hmem))) query.search.isDone
      query.search.writesBack (2 * (session.store.items table.name).length + 2) _ [] [] selected
      .none session hpages rfl hstart (by omega) hlookup.held ⟨rfl, rfl, rfl⟩
      (fun earlier hprefix hne => absurd (List.prefix_nil.mp hprefix) hne)
  have hleft : left = [] := by
    by_contra hleft
    obtain ⟨_, hmore, _⟩ := hends.stopped hleft
    have hlength := congrArg List.length hrest
    rw [List.length_append] at hlength
    have := List.length_pos_iff.mpr hmore
    have := List.length_pos_iff.mpr hleft
    simp only [List.nil_append] at *
    omega
  rw [hleft, List.append_nil] at hrest
  refine ⟨read, later, hrun.trans hread, ?_⟩
  have hrecords := hholds.records
  have hkeeps : query.search.keeps table = fun _ => true := by
    funext item
    rw [RecordSearch.keeps, hfor.filter]
    rfl
  rw [hkeeps, List.filter_true, List.nil_append, ← hrest, hselected] at hrecords
  simp only [List.map_id'] at hrecords
  exact Except.ok.inj (hrecords.symm.trans (mapM_toList hlookup.reads))

end Client.Lookup

/-! ### Agreement -/

/-- Every read of a key finds the same record, or none of them finds one. -/
structure Client.Finds (client : Client) (session : Session) (name : String) (key : RecordKey)
    (found : Option Record) : Prop where
  get : ∃ later, (client.get ⟨name, key, []⟩).run.run session = (.ok found, later)
  batchGet : ∃ later, (client.batchGet [(name, [key])]).run.run session =
    (.ok [(name, found.toList)], later)
  transactGet : ∃ later, (client.transactGet [⟨name, key, []⟩]).run.run session =
    (.ok [found], later)
  query : ∀ query : RecordQuery, query.search.table = name → query.IsFor key →
    ∃ read later, (client.query query).run.run session = (.ok read, later) ∧
      read.records = found.toList

namespace Client.Made

variable {units : Int64} {history : List (String × BatchEntry)}
  (htables : Registry.Tables client.registry.tables)
include htables

theorem isCurrent (hmade : client.Made units history store) : store.IsCurrent client.registry := by
  intro table hmem item hitem
  have htable : client.table table.name = .ok table := htables.requireTable_of_mem hmem
  obtain ⟨stored, hstored, _⟩ := hmade.exists_leftBy htables htable
  rw [Store.items, hstored] at hitem
  exact (hmade.current htables htable hstored item hitem).1

/-- All reads of a declared key come to the item that was last put under it. -/
theorem finds (hmade : client.Made units history session.store) {name : String}
    (htable : client.table name = .ok table) (hdeclares : table.DeclaresKey key) :
    ∃ whole found, table.keys.toItem key = .ok whole ∧
      (lastPut (.ofSchema table.keys) whole (requestsFor name history)).mapM (Record.ofItem table) =
        .ok found ∧ client.Finds session name key found := by
  obtain ⟨stored, hstored, hkeys, hleft⟩ := hmade.exists_leftBy htables htable
  obtain ⟨whole, hwhole⟩ := hdeclares.exists_toItem
  have hcurrent := hmade.current htables htable hstored
  have hbound := hleft.contents whole
  obtain ⟨found, hfound⟩ : ∃ found, (stored.contents whole).mapM (Record.ofItem table) = .ok found := by
    cases hcontents : stored.contents whole with
    | none => exact ⟨none, rfl⟩
    | some item =>
      obtain ⟨hitem, _⟩ := hcurrent item (List.mem_of_find?_eq_some hcontents)
      obtain ⟨record, hrecord⟩ := hitem.reads
      exact ⟨some record, by rw [Option.mapM_some, hrecord]; rfl⟩
  have hname := Registry.name_of_requireTable htable
  subst hname
  have hlookup : client.Lookup session table stored key whole found :=
    ⟨htable, hstored, hkeys, hwhole, fun item hmem => (hcurrent item hmem).1, hfound⟩
  rw [hbound, hkeys] at hfound
  have haccepted := htables.accepted table (Registry.mem_of_requireTable htable)
  refine ⟨whole, found, hwhole, hfound, hlookup.run_get, ?_, hlookup.run_transactGet, ?_⟩
  · exact hlookup.run_batchGet (hmade.serves htables) (hmade.isCurrent htables) hmade.rounds
  · intro query hname hfor
    exact hlookup.run_query haccepted hleft.keyed (fun item hmem => (hcurrent item hmem).2) hdeclares
      hname hfor

end Client.Made

theorem Record.keyItem_advance (table : TableSchema) (record : Record) (locking : Bool) :
    table.keyItem (PreparedPut.advance table record locking) = table.keyItem record := by
  unfold PreparedPut.advance
  split <;> rfl

/-- A saved record is stored under its own key, and every read of a key finds the record that was
last put under it and not deleted since. -/
theorem Client.Reaches.reads_agree {description : SchemaDescription}
    {registrations : List (String × Migration)} {units : Int64}
    {history : List (String × BatchEntry)} {name : String}
    (hbuild : Registry.build description registrations = .ok client.registry)
    (hreaches : client.Reaches units history session) (htable : client.table name = .ok table) :
    (∀ (record : Record) (locking : Bool) (item : Item), (Entries.names record.fields).Nodup →
      (PreparedPut.advance table record locking).toItem table = .ok item →
      ⟨some item, none⟩ ∈ requestsFor name history →
      ∃ whole, table.keyItem record = .ok whole ∧
        (KeyNames.ofSchema table.keys).keyOf? item = some whole) ∧
    ∀ key, table.DeclaresKey key → ∃ whole found, table.keys.toItem key = .ok whole ∧
      (lastPut (.ofSchema table.keys) whole (requestsFor name history)).mapM (Record.ofItem table) =
        .ok found ∧ client.Finds session name key found := by
  have htables := Registry.tables_of_build hbuild
  have hmade := hreaches.made htables
  refine ⟨fun record locking item hnames hstore hput => ?_, fun key hdeclares =>
    hmade.finds htables htable hdeclares⟩
  have haccepted := htables.accepted table (Registry.mem_of_requireTable htable)
  have hfits := hmade.fits _ (Batch.mem_requestsFor.mp hput)
  rw [Client.keysOf_eq htable] at hfits
  cases hfits with
  | put hkey =>
    rw [← PreparedPut.advance_fields table record locking] at hnames
    have hsame := Record.keyOf?_eq_keyItem haccepted hnames hstore
    rw [Record.keyItem_advance, hkey] at hsame
    refine ⟨_, ?_, hkey⟩
    cases hread : table.keyItem record with
    | ok whole =>
      rw [hread] at hsame
      cases hsame
      rfl
    | error error =>
      rw [hread] at hsame
      cases hsame

/-! ### Notes -/

/-- A save that succeeds puts its item. -/
theorem Client.Reaches.save {units : Int64} {history : List (String × BatchEntry)} {name : String}
    {record : Record} {options : SaveOptions} {item : Item}
    (hreaches : client.Reaches units history session)
    (hencode : (RecordChange.save name record options).encode client =
      .ok [(name, ⟨some item, none⟩)])
    (hreads : ∀ table, client.table name = .ok table →
      ∃ decoded, Record.ofItem table item = .ok decoded)
    (hok : (((RecordChange.save name record options).send client).run.run session).1.isOk = true) :
    client.Reaches units (history ++ [(name, ⟨some item, none⟩)])
      (((RecordChange.save name record options).send client).run.run session).2 := by
  have hdecodes : (RecordChange.save name record options).Decodes client := by
    intro writes hwrites other held hmem table htable
    cases hencode.symm.trans hwrites
    cases List.mem_singleton.mp hmem
    exact hreads table htable
  have hsent := Client.Reaches.send hreaches _ hdecodes (Prod.eta _).symm
  rw [hok] at hsent
  unfold RecordChange.made at hsent
  rw [hencode] at hsent
  exact hsent

def authorKey : KeyField :=
  ⟨"author", "author", .string⟩

def hourKey : KeyField :=
  ⟨"hour", "hour", .long⟩

/-- Notes under their author and a second component. -/
def notesDescription (range : KeyField) : SchemaDescription where
  tables := [{
    name := "notes"
    namespaceName := ""
    rootType := "Note"
    hashKey := "author"
    rangeKey := some range.field
    version := 1
    optimisticLocking := false
    migrations := false
    versionAttribute := none
    revisionAttribute := none
    types := [⟨"Note", [
      ⟨"author", none, .scalar, some .string, none, true, true, false, false, false, false, false⟩,
      ⟨"hour", none, .scalar, some .long, none, true, true, false, false, false, false, false⟩]⟩]
    indexes := [] }]

def notesTable (range : KeyField) : TableSchema :=
  let fieldOf (name : String) (element : ElementType) : FieldSchema :=
    { (default : FieldSchema) with
      name, wireName := name, type := .scalar element, persist := true, serialize := true }
  { (default : TableSchema) with
    name := "notes"
    rootType := "Note"
    version := 1
    versionAttribute := "_v"
    revisionAttribute := "_rev"
    keys := ⟨authorKey, some range⟩
    types := [⟨"Note", [fieldOf "author" .string, fieldOf "hour" .long]⟩] }

def notesClient (range : KeyField) : Client :=
  ⟨⟨[notesTable range], []⟩, default⟩

/-- The note that ada wrote at nine. -/
def earlyNote : Record :=
  ⟨"Note", [("author", .string "ada"), ("hour", .number (.integer 9))], 0⟩

def earlyItem : Item :=
  [("_v", .number "1"), ("author", .string "ada"), ("hour", .number "9")]

/-- What saving the note makes of empty tables. -/
def notesSession (range : KeyField) : Session :=
  (((RecordChange.save "notes" earlyNote .standard).send (notesClient range)).run.run
    (.start (.empty (notesClient range).registry 1))).2

def noteAt (hour : Int64) : RecordKey :=
  ⟨.string "ada", some (.number (.integer hour))⟩

theorem notesTable_declaresKey (hour : Int64) : (notesTable hourKey).DeclaresKey (noteAt hour) := by
  refine ⟨.text rfl, .some (.long rfl), fun component hrange hsame => ?_⟩
  cases hrange
  exact absurd hsame (by decide)

theorem build_notes_hour :
    Registry.build (notesDescription hourKey) [] = .ok (notesClient hourKey).registry := rfl

theorem build_notes_author :
    Registry.build (notesDescription authorKey) [] = .ok (notesClient authorKey).registry := rfl

theorem reaches_notes_hour :
    (notesClient hourKey).Reaches 1 [("notes", ⟨some earlyItem, none⟩)] (notesSession hourKey) := by
  refine Client.Reaches.start.save rfl (fun table htable => ?_) (by decide +kernel)
  cases htable
  exact ⟨_, rfl⟩

theorem reaches_notes_author :
    (notesClient authorKey).Reaches 1 [("notes", ⟨some earlyItem, none⟩)]
      (notesSession authorKey) := by
  refine Client.Reaches.start.save rfl (fun table htable => ?_) (by decide +kernel)
  cases htable
  exact ⟨_, rfl⟩

/-- The note is found under its author and its hour, and none at ten. -/
theorem Client.Reaches.reads_agree_notes :
    ∃ history, (notesClient hourKey).Reaches 1 history (notesSession hourKey) ∧
      (notesClient hourKey).Finds (notesSession hourKey) "notes" (noteAt 9) (some earlyNote) ∧
      (notesClient hourKey).Finds (notesSession hourKey) "notes" (noteAt 10) none := by
  have htable : (notesClient hourKey).table "notes" = .ok (notesTable hourKey) := rfl
  obtain ⟨_, hfinds⟩ := Client.Reaches.reads_agree build_notes_hour reaches_notes_hour htable
  obtain ⟨_, _, hnine, hfound, hreads⟩ := hfinds (noteAt 9) (notesTable_declaresKey 9)
  obtain ⟨_, _, hten, hnone, hothers⟩ := hfinds (noteAt 10) (notesTable_declaresKey 10)
  cases hnine
  cases hten
  cases hfound
  cases hnone
  exact ⟨_, reaches_notes_hour, hreads, hothers⟩

/-- Components that differ, for an attribute that is both of them. -/
def crossedKey : RecordKey :=
  ⟨.string "bob", some (.string "ada")⟩

def crossedQuery : RecordQuery where
  search := { (default : RecordSearch) with table := "notes" }
  hash := .string "bob"
  range := some (.compare .equal (.string "ada"))
  forward := true

/-- Where one attribute is both components, a get finds the note under its second component only, and
a query does not find it. -/
theorem Client.Reaches.reads_differ_notes :
    Registry.build (notesDescription authorKey) [] = .ok (notesClient authorKey).registry ∧
      ∃ history, (notesClient authorKey).Reaches 1 history (notesSession authorKey) ∧
        authorKey.Declares (.string "bob") ∧ authorKey.Declares (.string "ada") ∧
        (∃ later, ((notesClient authorKey).get ⟨"notes", crossedKey, []⟩).run.run
          (notesSession authorKey) = (.ok (some earlyNote), later)) ∧
        ∀ found, ¬ (notesClient authorKey).Finds (notesSession authorKey) "notes" crossedKey found := by
  have htables := Registry.tables_of_build build_notes_author
  have hmade := reaches_notes_author.made htables
  have htable : (notesClient authorKey).table "notes" = .ok (notesTable authorKey) := rfl
  obtain ⟨stored, hstored, hkeys, hleft⟩ := hmade.exists_leftBy htables htable
  have hlookup : (notesClient authorKey).Lookup (notesSession authorKey) (notesTable authorKey) stored
      crossedKey [("author", .string "ada")] (some earlyNote) := by
    refine ⟨htable, hstored, hkeys, rfl,
      fun item hmem => (hmade.current htables htable hstored item hmem).1, ?_⟩
    rw [hleft.contents, hkeys]
    rfl
  obtain ⟨later, hget⟩ := hlookup.run_get
  refine ⟨build_notes_author, _, reaches_notes_author, .text rfl, .text rfl, ⟨later, hget⟩,
    fun found hfinds => ?_⟩
  obtain ⟨last, hfound⟩ := hfinds.get
  cases hget.symm.trans hfound
  obtain ⟨read, after, hquery, hrecords⟩ := hfinds.query crossedQuery rfl
    ⟨rfl, rfl, rfl, rfl, rfl, rfl, fun most hmost => by cases hmost⟩
  have hnone : (((notesClient authorKey).query crossedQuery).run.run
      (notesSession authorKey)).1.toOption.map (fun read => read.records.length) = some 0 := by
    decide +kernel
  rw [hquery] at hnone
  cases (congrArg List.length hrecords).symm.trans (Option.some.inj hnone)

end RecordStore
