import RecordStore.Client.Read
import RecordStore.Proofs.Client.Call
import RecordStore.Proofs.Codec.Projection
import RecordStore.Proofs.Expression.Search
import RecordStore.Proofs.Store.Page

/-!
# Reading page by page

A search asks for pages until one is the last or enough were read. Each page goes on with the
candidates that the pages before it left, so that every candidate is read once and in its place.
-/

namespace RecordStore

open Expression (Fault)
open StoredTable (Distinct IsLimit RangeOrder ReadsAs ReadsPage hasAllKeys inOrder startAfter)

/-! ### Requests for pages -/

namespace Store

/-- The number of pages that a store was asked for. -/
def searches (store : Store) : Nat :=
  store.calls.countP fun call => call.operation = .query || call.operation = .scan

theorem Described.searches_eq {store later : Store} (hdescribed : store.Described later) :
    later.searches = store.searches := by
  rw [searches, searches, List.countP_eq_length_filter, List.countP_eq_length_filter,
    hdescribed.filter_calls fun call hcall => by rw [hcall]; decide]

/-- A call for one page of a table that is there. -/
theorem run_page {store : Store} {name : String} {stored : StoredTable} {page : Page}
    (operation : Operation) (context : RequestContext) (reports : Bool)
    {read : StoredTable → Except Fault Page} (htable : store.table? name = some stored)
    (hpage : read stored = .ok page) :
    (show StoreCall PageAnswer from do
      record operation name 0
      let table ← requireTable name context
      let page ← checked context (read table)
      return ⟨page, capacity reports name page.scanned⟩).run.run store =
      (.ok ⟨page, capacity reports name page.scanned⟩,
        { store with calls := store.calls ++ [⟨operation, name, 0⟩] }) := by
  have hrecord : (record operation name 0).run.run store =
      (.ok (), { store with calls := store.calls ++ [⟨operation, name, 0⟩] }) := rfl
  have hread : (requireTable name context).run.run
      { store with calls := store.calls ++ [⟨operation, name, 0⟩] } =
      (.ok stored, { store with calls := store.calls ++ [⟨operation, name, 0⟩] }) :=
    run_requireTable _ htable
  rw [run_bind_of_ok hrecord, run_bind_of_ok hread, hpage]
  rfl

end Store

namespace PagedRequest

variable {request : PagedRequest} {stored : StoredTable}

/-- The page that a table answers. -/
def page (request : PagedRequest) (stored : StoredTable) : Except Fault Page :=
  match request with
  | .query request => stored.query request.keyCondition request.forward request.read.page
  | .scan request => stored.scan request.segment request.total request.read.page

/-- The candidates that pages are taken from. -/
def candidates? (request : PagedRequest) (stored : StoredTable) : Except Fault (List Item) := do
  let keys ← stored.indexKeys request.read.index
  match request with
  | .query request =>
    match request.keyCondition with
    | none => throw .keyConditionRequired
    | some expression =>
      let condition ← Expression.Predicate.parse request.read.page.bindings expression
      stored.select keys condition request.forward
  | .scan request =>
    return stored.segment keys (request.segment.getD 0).toNat (max (request.total.getD 1) 1).toNat

theorem page_eq (request : PagedRequest) (stored : StoredTable) :
    request.page stored = (do
      let candidates ← request.candidates? stored
      stored.page candidates request.read.page) := by
  cases request with
  | query request =>
    change stored.query _ _ _ = _
    unfold candidates? StoredTable.query
    rw [bind_assoc]
    refine congrArg _ (funext fun keys => ?_)
    cases hcondition : request.keyCondition with
    | none => simp only [hcondition]; rfl
    | some expression => simp only [hcondition, bind_assoc]; rfl
  | scan request =>
    change stored.scan _ _ _ = _
    unfold candidates? StoredTable.scan
    rw [bind_assoc]
    rfl

theorem candidates?_query {request : QueryRequest} {keys : KeyNames} {text : String}
    {condition : Expression.Predicate} {selected : List Item}
    (hindex : stored.indexKeys request.read.page.index = .ok keys)
    (htext : request.keyCondition = some text)
    (hparse : Expression.Predicate.parse request.read.page.bindings text = .ok condition)
    (hselect : stored.select keys condition request.forward = .ok selected) :
    (PagedRequest.query request).candidates? stored = .ok selected := by
  change stored.indexKeys request.read.page.index >>= _ = _
  rw [hindex, ok_bind]
  simp only [htext]
  rw [hparse, ok_bind, hselect]

theorem candidates?_startingAfter (request : PagedRequest) (stored : StoredTable) (key : Item) :
    (request.startingAfter key).candidates? stored = request.candidates? stored := by
  cases request <;> rfl

theorem mem_candidates {candidates : List Item}
    (hcandidates : request.candidates? stored = .ok candidates) {item : Item}
    (hmem : item ∈ candidates) : item ∈ stored.items := by
  obtain ⟨keys, _, hselect⟩ := bind_eq_ok_iff.mp hcandidates
  cases request with
  | query request =>
    cases htext : request.keyCondition with
    | none =>
      simp only [htext] at hselect
      cases hselect
    | some text =>
      simp only [htext] at hselect
      obtain ⟨condition, _, hselect⟩ := bind_eq_ok_iff.mp hselect
      exact StoredTable.mem_select hselect hmem
  | scan request =>
    cases hselect
    exact (StoredTable.sublist_segment _ _ _ _).subset hmem

theorem run_send {store : Store} {page : Page}
    (htable : store.table? request.read.table = some stored)
    (hpage : request.page stored = .ok page) :
    ∃ answer later, request.send.run.run store = (.ok answer, later) ∧ answer.page = page ∧
      later.tables = store.tables ∧ later.searches = store.searches + 1 := by
  cases request with
  | query request =>
    exact ⟨_, _, Store.run_page .query (Store.readContext request.read request.keyCondition)
      request.read.reportsCapacity htable hpage, rfl, rfl, by simp [Store.searches]⟩
  | scan request =>
    exact ⟨_, _, Store.run_page .scan (Store.readContext request.read request.read.filter)
      request.read.reportsCapacity htable hpage, rfl, rfl, by simp [Store.searches]⟩

end PagedRequest

/-! ### Loading the items of a page -/

namespace Client

variable {client : Client} {table : TableSchema} {item : Item}

/-- An item at the version of its table is read as it is. -/
theorem decode_of_current (hcurrent : table.Current item) {record : Record}
    (hread : Record.ofItem table item = .ok record) :
    client.decode table item = .ok ⟨record, false⟩ := by
  obtain ⟨stored, hstored, hversion⟩ := hcurrent.version
  have hupgrade : (upgrade table (client.registry.migrationsOf table.name)).run.run item =
      (.ok .current, item) := by
    have hget : (MonadState.get : ItemEditor Item).run.run item = (.ok item, item) := rfl
    have hcounted := run_except (Codec.storedVersion table item) item
    rw [hstored] at hcounted
    rw [upgrade, run_bind_of_ok hget, hstored]
    rw [run_bind_of_ok hcounted]
    simp only [MigrationState.ofVersion, hversion, if_true]
    rfl
  rw [decode, hupgrade]
  change (do
    let record ← Record.ofItem table item
    return (⟨record, false⟩ : Loaded)) = _
  rw [hread]
  rfl

theorem run_load (hcurrent : table.Current item) {record : Record}
    (hread : Record.ofItem table item = .ok record) (writesBack : Bool) (session : Session) :
    (client.load table writesBack item).run.run session = (.ok record, session) := by
  rw [load, decode_of_current hcurrent hread]
  rfl

theorem run_loadAll (client : Client) {items : List Item} {records : List Record}
    (hcurrent : ∀ item ∈ items, table.Current item)
    (hread : items.mapM (Record.ofItem table) = .ok records) (writesBack : Bool)
    (session : Session) :
    (items.mapM (client.load table writesBack)).run.run session = (.ok records, session) := by
  induction items generalizing records with
  | nil =>
    cases hread
    rfl
  | cons item rest ih =>
    rw [List.mapM_cons] at hread
    obtain ⟨record, hrecord, hrest⟩ := bind_eq_ok_iff.mp hread
    obtain ⟨others, hothers, hdone⟩ := bind_eq_ok_iff.mp hrest
    cases hdone
    rw [List.mapM_cons, run_bind_of_ok (run_load (hcurrent item List.mem_cons_self) hrecord _ _),
      run_bind_of_ok (ih (fun other hmem => hcurrent other (List.mem_cons_of_mem _ hmem)) hothers)]
    rfl

/-- One page adds the records of its items, and nothing is stored. -/
theorem run_readPage (client : Client) {request : PagedRequest} {stored : StoredTable} {page : Page}
    {records : List Record} {session : Session}
    (hname : request.read.table = table.name)
    (hheld : session.store.table? table.name = some stored)
    (hpage : request.page stored = .ok page) (hcurrent : ∀ item ∈ page.items, table.Current item)
    (hrecords : page.items.mapM (Record.ofItem table) = .ok records) (writesBack : Bool)
    (held : Records) :
    ∃ answer later, (client.readPage table writesBack request held).run.run session =
        (.ok (held.add answer records), later) ∧ answer.page = page ∧
      later.store.tables = session.store.tables ∧
      later.store.searches = session.store.searches + 1 := by
  have hacquired : session.store.table?
      (Throughput.mk table.name request.read.index .read).table = some stored := hheld
  obtain ⟨ready, hready, hdescribed⟩ := Session.run_acquire client.config.limits hacquired
  have hthere : ready.store.table? request.read.table = some stored := by
    rw [hname, hdescribed.table?_eq, hheld]
  obtain ⟨answer, left, hsend, hanswer, htables, hsearches⟩ := PagedRequest.run_send hthere hpage
  have hcall := Session.run_call_eq hsend
  obtain ⟨recorded, hrecorded, hstore⟩ := Session.run_recordConsumed
    ⟨table.name, request.read.index, .read⟩ (answer.capacity.bind ConsumedCapacity.units)
    { ready with store := left }
  subst hanswer
  have hload := run_loadAll client hcurrent hrecords writesBack recorded
  refine ⟨answer, recorded, ?_, rfl, ?_, ?_⟩
  · have hacquire : (client.acquire ⟨table.name, request.read.index, .read⟩).run.run session =
        (.ok (), ready) := hready
    unfold readPage
    rw [run_bind_of_ok hacquire, run_bind_of_ok hcall, run_bind_of_ok hrecorded, run_bind_of_ok hload]
    rfl
  · rw [hstore, htables, hdescribed.tables]
  · rw [hstore, hsearches, hdescribed.searches_eq]

/-! ### Page after page -/

/-- A request reads pages of candidates in a table. -/
structure Pages (table : TableSchema) (stored : StoredTable) (candidates : List Item)
    (keeps : Item → Bool) (shown : Item → Item) (request : PagedRequest) : Prop where
  name : request.read.table = table.name
  limit : IsLimit request.read.limit
  candidates : request.candidates? stored = .ok candidates
  reading : ReadsAs request.read.page keeps shown

theorem Pages.startingAfter {stored : StoredTable} {candidates : List Item} {keeps : Item → Bool}
    {shown : Item → Item} {request : PagedRequest}
    (hpages : Pages table stored candidates keeps shown request) (key : Item) :
    Pages table stored candidates keeps shown (request.startingAfter key) where
  name := by cases request <;> exact hpages.name
  limit := by cases request <;> exact hpages.limit
  candidates := by rw [PagedRequest.candidates?_startingAfter, hpages.candidates]
  reading := by cases request <;> exact hpages.reading

/-- What is held of the candidates seen: the records of those that are kept, and how many they
are. -/
structure Holds (table : TableSchema) (keeps : Item → Bool) (shown : Item → Item)
    (seen : List Item) (held : Records) : Prop where
  records : ((seen.filter keeps).map shown).mapM (Record.ofItem table) = .ok held.records
  count : held.count = .ofNat held.records.length
  scanned : held.scanned = .ofNat seen.length

theorem Holds.add {keeps : Item → Bool} {shown : Item → Item} {seen read : List Item}
    {held : Records} {answer : PageAnswer} {records : List Record}
    (hholds : Holds table keeps shown seen held)
    (hitems : answer.page.items = (read.filter keeps).map shown)
    (hscanned : answer.page.scanned = read.length)
    (hrecords : answer.page.items.mapM (Record.ofItem table) = .ok records) :
    Holds table keeps shown (seen ++ read) (held.add answer records) := by
  have hlength : answer.page.items.length = records.length := (mapM_ok hrecords).length_eq
  constructor
  · rw [List.filter_append, List.map_append]
    rw [hitems] at hrecords
    exact mapM_append_ok hholds.records hrecords
  · simp only [Records.add, hholds.count, hlength, List.length_append, Int32.ofNat_add]
  · simp only [Records.add, hholds.scanned, hscanned, List.length_append, Int32.ofNat_add]

/-- Reading is to go on after each of the pages. -/
def Ongoing (isDone : List Nat → Bool) (progress : List Nat) : Prop :=
  ∀ earlier, earlier <+: progress → earlier ≠ [] → isDone earlier = false

theorem Ongoing.concat {isDone : List Nat → Bool} {progress : List Nat} {read : Nat}
    (hongoing : Ongoing isDone progress) (hmore : isDone (progress ++ [read]) = false) :
    Ongoing isDone (progress ++ [read]) := by
  intro earlier hprefix hne
  rcases List.prefix_concat_iff.mp hprefix with rfl | hprefix
  · exact hmore
  · exact hongoing earlier hprefix hne

/-- What one page adds to what is held of the candidates before it. -/
structure Step (table : TableSchema) (stored : StoredTable) (index : Option String)
    (keeps : Item → Bool) (shown : Item → Item) (session later : Session) (held read : Records)
    (seen more left : List Item) : Prop where
  holds : Holds table keeps shown (seen ++ more) read
  tables : later.store.tables = session.store.tables
  searches : later.store.searches = session.store.searches + 1
  progress : read.progress = held.progress ++ [read.records.length]
  ended : left = [] → read.lastKey = none
  more : left ≠ [] → more ≠ [] ∧ read.lastKey = more.getLast?.map (stored.pageKey index)

/-- A page reads on where the pages before it stopped. -/
theorem run_readPage_step (client : Client) {stored : StoredTable} {candidates : List Item} {keeps : Item → Bool}
    {shown : Item → Item} (hdistinct : stored.Distinct candidates)
    (hcurrent : ∀ item ∈ candidates, table.Current (shown item)) (writesBack : Bool)
    {request : PagedRequest} {before seen rest : List Item} {held : Records} {session : Session}
    (hpages : Pages table stored candidates keeps shown request)
    (hsplit : candidates = before ++ rest)
    (hstart : request.read.start = before.getLast?.map (stored.pageKey request.read.index))
    (hheld : session.store.table? table.name = some stored)
    (hholds : Holds table keeps shown seen held) :
    ∃ read later more left, (client.readPage table writesBack request held).run.run session =
        (.ok read, later) ∧ rest = more ++ left ∧
      Step table stored request.read.index keeps shown session later held read seen more left := by
  have hfollowing : startAfter candidates request.read.page.start = .ok rest :=
    (congrArg (startAfter candidates) hstart).trans (hdistinct.startAfter_eq hsplit)
  obtain ⟨more, left, page, hpage, hreads⟩ :=
    stored.exists_page hpages.reading hpages.limit hfollowing
  have hrequest : request.page stored = .ok page := by
    rw [PagedRequest.page_eq, hpages.candidates]
    exact hpage
  have hitems : ∀ item ∈ page.items, table.Current item := by
    intro item hitem
    rw [hreads.items] at hitem
    obtain ⟨candidate, hcandidate, rfl⟩ := List.mem_map.mp hitem
    apply hcurrent
    rw [hsplit, hreads.split]
    simp [List.mem_of_mem_filter hcandidate]
  obtain ⟨records, hrecords⟩ := exists_mapM fun item hitem => (hitems item hitem).reads
  obtain ⟨answer, later, hrun, rfl, htables, hsearches⟩ :=
    run_readPage client hpages.name hheld hrequest hitems hrecords writesBack held
  exact ⟨held.add answer records, later, more, left, hrun, hreads.split,
    hholds.add hreads.items hreads.scanned hrecords, htables, hsearches, by simp [Records.add],
    hreads.ended, hreads.more⟩

/-- How reading ends: with the last candidate, or after a page after which enough is read. -/
structure Ends (stored : StoredTable) (index : Option String) (isDone : List Nat → Bool)
    (session later : Session) (before : Nat) (read : Records) (seen rest : List Item) : Prop where
  tables : later.store.tables = session.store.tables
  searches : later.store.searches + before = session.store.searches + read.progress.length
  progress : ∃ earlier, read.progress = earlier ++ [read.records.length] ∧ Ongoing isDone earlier
  ended : rest = [] → read.lastKey = none
  stopped : rest ≠ [] → isDone read.progress = true ∧ seen ≠ [] ∧
    read.lastKey = seen.getLast?.map (stored.pageKey index)

theorem run_readPages (client : Client) {stored : StoredTable} {candidates : List Item} {keeps : Item → Bool}
    {shown : Item → Item} (hdistinct : stored.Distinct candidates)
    (hcurrent : ∀ item ∈ candidates, table.Current (shown item)) (isDone : List Nat → Bool)
    (writesBack : Bool) {bound : Nat} {request : PagedRequest} {before seen rest : List Item}
    {held : Records} {session : Session}
    (hpages : Pages table stored candidates keeps shown request)
    (hsplit : candidates = before ++ rest)
    (hstart : request.read.start = before.getLast?.map (stored.pageKey request.read.index))
    (hbound : rest.length < bound)
    (hheld : session.store.table? table.name = some stored)
    (hholds : Holds table keeps shown seen held) (hongoing : Ongoing isDone held.progress) :
    ∃ read later more left, (client.readPages table writesBack isDone bound request held).run.run
        session = (.ok read, later) ∧ rest = more ++ left ∧
      Holds table keeps shown (seen ++ more) read ∧
      Ends stored request.read.index isDone session later held.progress.length read (before ++ more)
        left := by
  induction bound generalizing request before seen rest held session with
  | zero => omega
  | succ bound ih =>
    obtain ⟨page, between, more, left, hrun, hrest, hstep⟩ :=
      run_readPage_step client hdistinct hcurrent writesBack hpages hsplit hstart hheld
        hholds
    have hcalls : between.store.searches + held.progress.length =
        session.store.searches + page.progress.length := by
      rw [hstep.searches, hstep.progress, List.length_append, List.length_singleton]
      omega
    unfold readPages
    rw [run_bind_of_ok hrun]
    by_cases hleft : left = []
    · rw [hstep.ended hleft]
      exact ⟨page, between, more, left, rfl, hrest, hstep.holds, hstep.tables, hcalls,
        ⟨held.progress, hstep.progress, hongoing⟩, hstep.ended, fun hne => absurd hleft hne⟩
    obtain ⟨hmore, hkey⟩ := hstep.more hleft
    obtain ⟨last, hlast⟩ : ∃ last, more.getLast? = some last :=
      ⟨_, List.getLast?_eq_some_getLast hmore⟩
    have hwhole : (before ++ more).getLast? = some last := by
      rw [List.getLast?_append, hlast]
      rfl
    rw [hkey, hlast]
    by_cases hdone : isDone page.progress = true
    · refine ⟨page, between, more, left, ?_, hrest, hstep.holds, hstep.tables, hcalls,
        ⟨held.progress, hstep.progress, hongoing⟩, hstep.ended, fun _ => ⟨hdone, ?_, ?_⟩⟩
      · simp only [Option.map_some, hdone, if_true]
        rfl
      · exact List.append_ne_nil_of_right_ne_nil _ hmore
      · rw [hkey, hlast, hwhole]
    · have hindex : ∀ key : Item, (request.startingAfter key).read.index = request.read.index := by
        intro key
        cases request <;> rfl
      have hstarted : (request.startingAfter (stored.pageKey request.read.index last)).read.start =
          some (stored.pageKey request.read.index last) := by
        cases request <;> rfl
      have hshorter : left.length < bound := by
        have hlonger := congrArg List.length hrest
        rw [List.length_append] at hlonger
        have := List.length_pos_iff.mpr hmore
        omega
      have hstill : Ongoing isDone page.progress := by
        rw [hstep.progress] at hdone ⊢
        exact hongoing.concat (Bool.eq_false_iff.mpr hdone)
      have hfurther : candidates = (before ++ more) ++ left := by
        rw [hsplit, hrest, List.append_assoc]
      obtain ⟨read, later, next, rest, hnext, hnextSplit, hholdsNext, hends⟩ :=
        ih (hpages.startingAfter (stored.pageKey request.read.index last)) hfurther
          (by rw [hstarted, hindex, hwhole]; rfl) hshorter
          (by rw [Store.table?, hstep.tables]; exact hheld) hstep.holds hstill
      rw [hindex, List.append_assoc] at hends
      refine ⟨read, later, more ++ next, rest, ?_, ?_, ?_, ?_⟩
      · simp only [Option.map_some, hdone]
        exact hnext
      · rw [hrest, hnextSplit, List.append_assoc]
      · rwa [← List.append_assoc]
      · refine ⟨hends.tables.trans hstep.tables, ?_, hends.progress, hends.ended, hends.stopped⟩
        have := hends.searches
        omega

end Client

end RecordStore
