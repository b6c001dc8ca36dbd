import RecordStore.Proofs.Migration.Reading

/-!
# Reads of many records that migrate

A batch or a search makes several calls of the store. Between them it stores records again, and may
fail on the way.
-/

namespace RecordStore

open Expression (Fault)

namespace RecordRead

variable {client : Client} {read : RecordRead} {start session : Session} {table : TableSchema}
  {item : Item}

/-! ### Batches -/

theorem yields_batchGetTable (context : RequestContext) (throttled reports : Bool) (name : String)
    (keys : List Item) :
    Yields (read.Rewrites client start)
      (fun answer => ∀ response ∈ answer.responses, ∀ item ∈ response.2,
        read.Present client start response.1 item)
      (Store.batchGetTable context throttled reports name ⟨keys, none, none⟩) := by
  unfold Store.batchGetTable
  refine (Store.yields_requireTable _ _).bind fun after ⟨before, hbefore, hboth⟩ => ?_
  have hread : ∀ key, Yields (read.Rewrites client start)
      (fun found => ∀ item, found = some item → read.Present client start name item)
      (Store.readKey after context ⟨keys, none, none⟩ key) := by
    intro key
    unfold Store.readKey
    refine (Store.yields_checked _ _).bind fun exact _ => ?_
    refine (Store.yields_checked _ _).mono fun found hread item hitem => ?_
    subst hitem
    cases hfind : after.find? exact with
    | none =>
      rw [hfind] at hread
      cases hread
    | some held =>
      rw [hfind] at hread
      cases hread
      exact present_of_mem hbefore hboth (StoredTable.mem_of_find? hfind)
  refine (Yields.mapM fun key _ => hread key).bind fun found hfound => .pure ?_
  intro response hmem item hitem
  rw [List.mem_singleton.mp hmem] at hitem ⊢
  obtain ⟨held, hheld, hsame⟩ := List.mem_filterMap.mp hitem
  exact hfound held hheld item hsame

theorem yields_batchGet (groups : List (String × List Item)) :
    Yields (read.Rewrites client start)
      (fun answer => ∀ response ∈ answer.responses, ∀ item ∈ response.2,
        read.Present client start response.1 item)
      (Store.batchGet (Store.keyRequests groups) true) := by
  have htables : ∀ context throttled, Yields (read.Rewrites client start)
      (fun answer => ∀ response ∈ answer.responses, ∀ item ∈ response.2,
        read.Present client start response.1 item)
      (Store.batchGetTables context throttled true (Store.keyRequests groups)) := by
    intro context throttled
    induction groups with
    | nil => exact .pure (by simp)
    | cons group rest ih =>
      refine (yields_batchGetTable context throttled true group.1 group.2).bind
        fun first hfirst => ?_
      refine ih.bind fun others hothers => .pure fun response hmem => ?_
      exact (List.mem_append.mp hmem).elim (hfirst response) (hothers response)
  unfold Store.batchGet
  refine (Yields.of_preserves (Store.preserves_record Store.rewritten_recorded _ _ _)).bind
    fun _ _ => ?_
  exact (Yields.of_preserves (Store.preserves_takeUnprocessedRound Store.rewritten_rounds)).bind
    fun _ _ => htables _ _

section Batches

variable (htables : Registry.Tables client.registry.tables)
  (hserves : start.store.Serves client.registry)
include htables hserves

/-- Loading what a call of a batch answers stores records again at most. -/
theorem keeps_loadTables {items : List (String × List RecordKey)}
    {responses : List (String × List Item)}
    (hpresent : ∀ response ∈ responses, ∀ item ∈ response.2,
      Present client (.batch items) start response.1 item)
    (hreceived : ∀ response ∈ responses, ∀ item ∈ response.2,
      Receives client response.1 item (.batch items) start)
    (held : List (String × List Record)) :
    Preserves (Keeps client (.batch items) start) (responses.foldlM client.loadTable held) := by
  refine .foldlM (fun response hmem held => ?_) held
  unfold Client.loadTable
  refine (Yields.lift fun _ htable => htable).bind_preserves fun table htable => ?_
  have hitems : Yields (Keeps client (.batch items) start) (fun _ => ∀ _ ∈ response.2, True)
      (response.2.mapM (client.load table true)) :=
    (Yields.mapM fun item hitem => Yields.of_preserves (keeps_load htables hserves rfl htable
      (hpresent response hmem item hitem) (hreceived response hmem item hitem) true)).mono
        fun _ _ _ _ => trivial
  exact hitems.preserves.bind fun _ => .pure _

theorem keeps_getChunk {items : List (String × List RecordKey)} {bound attempt : Nat}
    {groups : List (String × List Item)} {held : List (String × List Record)}
    (hreceived : ∀ name item, client.CallsAnswer name item bound attempt groups held session →
      Receives client name item (.batch items) start)
    (hkeeps : Keeps client (.batch items) start session) :
    Keeps client (.batch items) start
      ((client.getChunk bound attempt groups held).run.run session).2 := by
  induction bound generalizing attempt groups held session with
  | zero => exact hkeeps
  | succ bound ih =>
    unfold Client.getChunk
    have hacquire : Preserves (Keeps client (.batch items) start)
        (client.acquireAll .read (Entries.names groups)) :=
      Session.preserves_of_described rewrites_of_described fun store =>
        Session.described_acquireAll client.config.limits .read (Entries.names groups)
    refine Yields.bind_run (.of_preserves hacquire) hkeeps fun _ ready hready _ hkeeps => ?_
    refine Yields.bind_run (Session.yields_call (yields_batchGet groups)) hkeeps
      fun answer called hanswer hpresent hkeeps => ?_
    refine Yields.bind_run (.of_preserves (Session.preserves_recordAll _ _)) hkeeps
      fun _ recorded hrecorded _ hkeeps => ?_
    have hload := keeps_loadTables htables hserves hpresent (fun response hmem item hitem =>
      hreceived _ _ (.here hready hanswer hmem rfl hitem)) held
    refine Yields.bind_run (.of_preserves hload) hkeeps fun read loaded hloaded _ hkeeps => ?_
    dsimp only
    split
    · exact hkeeps
    · refine Yields.bind_run (.of_preserves (Client.preserves_awaitRetry _ _)) hkeeps
        fun _ later hwaited _ hkeeps => ?_
      exact ih (fun name item hrest => hreceived name item
        (.later hready hanswer hrecorded hloaded rfl hwaited hrest)) hkeeps

theorem keeps_chunks {items : List (String × List RecordKey)}
    {chunks : List (List (String × Item))} {held : List (String × List Record)}
    (hreceived : ∀ name item, client.ChunksAnswer name item chunks held session →
      Receives client name item (.batch items) start)
    (hkeeps : Keeps client (.batch items) start session) :
    Keeps client (.batch items) start
      ((chunks.foldlM (fun held chunk => do
        client.getChunk (← Client.callBound) 1 (Batch.byTable chunk) held) held).run.run
        session).2 := by
  induction chunks generalizing held session with
  | nil => exact hkeeps
  | cons chunk rest ih =>
    rw [List.foldlM_cons]
    have hrun : (do
        client.getChunk (← Client.callBound) 1 (Batch.byTable chunk) held).run.run session =
        (client.getChunk (session.store.unprocessedRounds + 1) 1 (Batch.byTable chunk)
          held).run.run session := rfl
    refine holds_bind ?_ fun read later hchunk hkeeps => ?_
    · rw [hrun]
      exact keeps_getChunk htables hserves
        (fun name item hcalls => hreceived name item (.here hcalls)) hkeeps
    · exact ih (fun name item hrest => hreceived name item (.later (hrun.symm.trans hchunk) hrest))
        hkeeps

theorem keeps_batchGet (items : List (String × List RecordKey)) :
    Keeps client (.batch items) start ((client.batchGet items).run.run start).2 := by
  have hstart : Keeps client (.batch items) start start := .refl _ _
  unfold Client.batchGet
  refine Yields.bind_run (.of_preserves (.lift _)) hstart fun keys later hread _ _ => ?_
  obtain ⟨hkeys, hsame⟩ := run_except_ok hread
  subst later
  exact keeps_chunks htables hserves (fun name item hchunks => .batch hkeys hchunks) hstart

end Batches

/-! ### Searches -/

/-- The pages of a request hold whole items. -/
structure Whole (table : TableSchema) (request : PagedRequest) : Prop where
  name : request.read.table = table.name
  reading : ∃ keeps, StoredTable.ReadsAs request.read.page keeps id

theorem Whole.startingAfter {request : PagedRequest} (hwhole : Whole table request) (key : Item) :
    Whole table (request.startingAfter key) where
  name := by cases request <;> exact hwhole.name
  reading := by cases request <;> exact hwhole.reading

theorem whole_of_request {wanted : Search} {request : PagedRequest}
    (hprojection : wanted.common.projection = []) (hrequest : wanted.request table = .ok request) :
    Whole table request := by
  have hreading : ∀ {search : RecordSearch} {paths : List (List String)} {read : PageRequest},
      search.projection = [] → search.Asks table paths read →
      StoredTable.ReadsAs read (search.keeps table) id := by
    intro search paths read hnone hasks
    have hpaths := hasks.paths
    rw [hnone] at hpaths
    cases hpaths with
    | whole => exact Search.reading_of_asks hasks
    | some hnames _ => exact absurd rfl hnames
  cases wanted with
  | query query =>
    obtain ⟨built, hbuilt, rfl⟩ := map_eq_ok_iff.mp hrequest
    obtain ⟨keys, hkeys, _⟩ := bind_eq_ok_iff.mp hbuilt
    obtain ⟨_, _, _, hasks, hname, _⟩ := RecordQuery.asks_request hkeys hbuilt
    exact ⟨hname, _, hreading hprojection hasks⟩
  | scan scan =>
    obtain ⟨built, hbuilt, rfl⟩ := map_eq_ok_iff.mp hrequest
    obtain ⟨_, hasks, hname, _⟩ := RecordScan.asks_request hbuilt
    exact ⟨hname, _, hreading hprojection hasks⟩

/-- A store answers a page of a table that it holds. -/
theorem yields_page {name : String} (context : RequestContext) (operation : Operation)
    (reports : Bool) {page : StoredTable → Except Fault Page} :
    Yields (read.Rewrites client start)
      (fun answer => ∃ before after, start.store.table? name = some before ∧
        before.Rewritten (read.Leaves client start name before) after ∧
        page after = .ok answer.page)
      (do
        Store.record operation name 0
        let table ← Store.requireTable name context
        let page ← Store.checked context (page table)
        return (⟨page, Store.capacity reports name page.scanned⟩ : PageAnswer)) := by
  refine (Yields.of_preserves (Store.preserves_record Store.rewritten_recorded _ _ _)).bind
    fun _ _ => ?_
  refine (Store.yields_requireTable _ _).bind fun after ⟨before, hbefore, hboth⟩ => ?_
  exact (Store.yields_checked _ _).bind fun page hpage =>
    .pure ⟨before, after, hbefore, hboth, hpage⟩

theorem yields_send (table : TableSchema) (request : PagedRequest) :
    Yields (read.Rewrites client start)
      (fun answer => Whole table request → ∀ item ∈ answer.page.items,
        read.Present client start table.name item) request.send := by
  have hpages : Yields (read.Rewrites client start)
      (fun answer => ∃ before after, start.store.table? request.read.table = some before ∧
        before.Rewritten (read.Leaves client start request.read.table before) after ∧
        request.page after = .ok answer.page) request.send := by
    cases request with
    | query request => exact yields_page _ .query _
    | scan request => exact yields_page _ .scan _
  refine hpages.mono fun answer ⟨before, after, hbefore, hboth, hpage⟩ hwhole item hmem => ?_
  rw [hwhole.name] at hbefore hboth
  rw [PagedRequest.page_eq] at hpage
  obtain ⟨candidates, hcandidates, hpage⟩ := bind_eq_ok_iff.mp hpage
  obtain ⟨keeps, hreading⟩ := hwhole.reading
  obtain ⟨candidate, hcandidate, _, rfl⟩ := StoredTable.mem_page hreading hpage hmem
  exact present_of_mem hbefore hboth (PagedRequest.mem_candidates hcandidates hcandidate)

section Searches

variable {wanted : Search} (htables : Registry.Tables client.registry.tables)
  (hserves : start.store.Serves client.registry)
include htables hserves

/-- Either nothing of a page may be stored again, or it holds whole items that the read receives. -/
theorem keeps_readPage {name : String} {request : PagedRequest} (held : Records)
    (htable : client.table name = .ok table)
    (hwhole : wanted.common.writesBack = true → Whole table request)
    (hreceived : ∀ ready answer later,
      (client.acquire ⟨table.name, request.read.index, .read⟩).run.run session = (.ok (), ready) →
      (Session.call request.send).run.run ready = (.ok answer, later) →
      ∀ item ∈ answer.page.items, Receives client table.name item (.search wanted) start)
    (hkeeps : Keeps client (.search wanted) start session) :
    Keeps client (.search wanted) start
      ((client.readPage table wanted.common.writesBack request held).run.run session).2 := by
  unfold Client.readPage
  refine Yields.bind_run (.of_preserves (Session.preserves_of_described rewrites_of_described
    fun _ => Session.described_acquire _ _)) hkeeps fun _ ready hready _ hkeeps => ?_
  refine Yields.bind_run (Session.yields_call (yields_send table request)) hkeeps
    fun answer later hanswer hpresent hkeeps => ?_
  have hload : ∀ item ∈ answer.page.items, Preserves (Keeps client (.search wanted) start)
      (client.load table wanted.common.writesBack item) := by
    intro item hmem
    cases hwrites : wanted.common.writesBack with
    | false => exact keeps_load_unwritten table item
    | true =>
      have hplain : (RecordRead.search wanted).writesBack = true := hwrites
      rw [← Registry.name_of_requireTable htable] at htable
      exact keeps_load htables hserves hplain htable (hpresent (hwhole hwrites) item hmem)
        (hreceived _ _ _ hready hanswer item hmem) true
  have hloaded : Yields (Keeps client (.search wanted) start)
      (fun _ => ∀ _ ∈ answer.page.items, True)
      (answer.page.items.mapM (client.load table wanted.common.writesBack)) :=
    (Yields.mapM fun item hmem => .of_preserves (hload item hmem)).mono fun _ _ _ _ => trivial
  exact ((Session.preserves_recordConsumed _ _).bind fun _ => hloaded.preserves.bind fun _ => .pure _) later
    hkeeps

theorem keeps_readPages {name : String} {isDone : List Nat → Bool} {bound : Nat}
    {request : PagedRequest} {held : Records} (htable : client.table name = .ok table)
    (hwhole : wanted.common.writesBack = true → Whole table request)
    (hreceived : ∀ item, client.PagesHold table wanted.common.writesBack isDone item bound request held
      session → Receives client table.name item (.search wanted) start)
    (hkeeps : Keeps client (.search wanted) start session) :
    Keeps client (.search wanted) start ((client.readPages table wanted.common.writesBack isDone bound
      request held).run.run session).2 := by
  induction bound generalizing request held session with
  | zero => exact hkeeps
  | succ bound ih =>
    unfold Client.readPages
    have hpage := keeps_readPage htables hserves held htable hwhole
      (fun _ _ _ hready hanswer item hmem => hreceived item (.here hready hanswer hmem)) hkeeps
    refine holds_bind hpage fun read later hread hkeeps => ?_
    split
    · rename_i key hkey
      split
      · exact hkeeps
      · rename_i hmore
        exact ih (fun hwrites => (hwhole hwrites).startingAfter key) (fun item hrest =>
          hreceived item (.later hread hkey (Bool.eq_false_iff.mpr hmore) hrest)) hkeeps
    · exact hkeeps

theorem keeps_search (wanted : Search) :
    Keeps client (.search wanted) start
      ((wanted.send client wanted.common.isDone).run.run start).2 := by
  have hstart : Keeps client (.search wanted) start start := .refl _ _
  rw [Search.send_eq]
  refine Yields.bind_run (.of_preserves (.lift _)) hstart fun table later hread _ _ => ?_
  obtain ⟨htable, hsame⟩ := run_except_ok hread
  subst later
  refine Yields.bind_run (.of_preserves (.lift _)) hstart fun request later hbuild _ _ => ?_
  obtain ⟨hrequest, hsame⟩ := run_except_ok hbuild
  subst later
  have hname := Registry.name_of_requireTable htable
  refine keeps_readPages htables hserves htable (fun hwrites => ?_)
    (fun item hpages => .search htable hname.symm hrequest hpages) hstart
  simp only [RecordSearch.writesBack, Bool.and_eq_true, List.isEmpty_iff] at hwrites
  exact whole_of_request hwrites.2 hrequest

end Searches

end RecordRead

end RecordStore
