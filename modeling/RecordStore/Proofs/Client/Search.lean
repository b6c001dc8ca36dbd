import RecordStore.Proofs.Client.Paging

/-!
# Searching

The candidates of a query are the items with its key in the order of their range keys, and those of a
scan the items in the order of insertion. Whatever the pages hold, a search reads the same records in
the same order, and a search that was stopped goes on with the candidates that it left.
-/

namespace RecordStore

open Client (Ends Holds Ongoing Pages)
open StoredTable (IsLimit RangeOrder ReadsAs hasAllKeys inOrder)

/-- A table keeps its keys and those of its indexes. -/
structure StoredTable.Serves (stored : StoredTable) (table : TableSchema) : Prop where
  keys : stored.keys = .ofSchema table.keys
  indexes : stored.indexes = table.indexes.map fun index => (index.name, .ofSchema index.keys)

/-- A query or a scan. -/
inductive Search where
  | query (query : RecordQuery)
  | scan (scan : RecordScan)

/-- The request for a page elsewhere, or of another size. -/
def PagedRequest.paged (start : Option Item) (limit : Option Int) : PagedRequest → PagedRequest
  | .query request => .query { request with read := { request.read with start, limit } }
  | .scan request => .scan { request with read := { request.read with start, limit } }

@[simp] theorem PagedRequest.start_paged (request : PagedRequest) (start : Option Item)
    (limit : Option Int) : (request.paged start limit).read.start = start := by
  cases request <;> rfl

@[simp] theorem PagedRequest.index_paged (request : PagedRequest) (start : Option Item)
    (limit : Option Int) : (request.paged start limit).read.index = request.read.index := by
  cases request <;> rfl

namespace Search

variable (client : Client) (table : TableSchema) (stored : StoredTable) (keys : KeySchema)
  (ascends : Item → Item → Bool)

def common : Search → RecordSearch
  | .query wanted => wanted.search
  | .scan wanted => wanted.search

/-- The search with pages of another size, which starts elsewhere. -/
def paged (start : Option Item) (limit : Option Int) : Search → Search
  | .query wanted => .query { wanted with search := { wanted.search with start, limit } }
  | .scan wanted => .scan { wanted with search := { wanted.search with start, limit } }

def request : Search → Except Error PagedRequest
  | .query wanted => (wanted.request table).map .query
  | .scan wanted => (wanted.request table).map .scan

/-- Reads pages until they are enough. -/
def send (isDone : List Nat → Bool) : Search → SessionCall Records
  | .query wanted => client.queryUntil isDone wanted
  | .scan wanted => client.scanUntil isDone wanted

/-- The items that a search evaluates, in order: for a query those with the key in the order of their
range keys, for a scan those of its segment in the order of insertion. -/
def candidates : Search → List Item
  | .query wanted => inOrder (.ofSchema keys) ascends wanted.forward
      (stored.items.filter fun item => hasAllKeys (.ofSchema keys) item && wanted.selects keys item)
  | .scan ⟨_, none, none⟩ => stored.items.filter (hasAllKeys (.ofSchema keys))
  | .scan ⟨_, segment, total⟩ =>
    stored.segment (.ofSchema keys) (segment.getD 0).toNat (max (total.getD 1) 1).toNat

/-! ### Requests of searches -/

section Requests

variable {client table stored keys ascends} {search : Search}

theorem request_paged (search : Search) (start : Option Item) (limit : Option Int) :
    (search.paged start limit).request table =
      (search.request table).map (PagedRequest.paged start limit) := by
  cases search with
  | query wanted =>
    change (RecordQuery.request table { wanted with
      search := { wanted.search with start, limit } }).map PagedRequest.query =
      ((wanted.request table).map PagedRequest.query).map _
    unfold RecordQuery.request
    cases table.keysOf wanted.search.index with
    | error error => rfl
    | ok keys =>
      simp only [ok_bind]
      change ((Expression.Builder.run "" (do
        wanted.keyCondition table keys
        wanted.search.narrow table) >>= _).map _ : Except Error PagedRequest) = _
      cases Expression.Builder.run "" (do
        wanted.keyCondition table keys
        wanted.search.narrow table) <;> rfl
  | scan wanted =>
    change (RecordScan.request table { wanted with
      search := { wanted.search with start, limit } }).map PagedRequest.scan =
      ((wanted.request table).map PagedRequest.scan).map _
    unfold RecordScan.request
    cases table.keysOf wanted.search.index with
    | error error => rfl
    | ok keys =>
      simp only [ok_bind]
      change ((Expression.Builder.run "" (wanted.search.narrow table) >>= _).map _ :
        Except Error PagedRequest) = _
      cases Expression.Builder.run "" (wanted.search.narrow table) <;> rfl

theorem reading_of_asks {wanted : RecordSearch} {paths : List (List String)}
    {request : PageRequest} (hasks : wanted.Asks table paths request) :
    ReadsAs request (wanted.keeps table) (Item.shown paths) := by
  obtain ⟨filter, hparse, hholds⟩ := hasks.filter
  refine ⟨filter, hparse, fun item => ?_⟩
  have hkept : StoredTable.readItem filter request item = (do
      let keep ← (filter.elim (.ok true) fun predicate => predicate.holds item : Except _ Bool)
      if keep then return some (← Expression.projectItem item request.projection request.bindings)
      else return none) := by
    cases filter <;> rfl
  rw [hkept, hholds, ok_bind, hasks.projection]
  cases wanted.keeps table item <;> rfl

theorem indexKeys_of_serves (hserves : stored.Serves table) {index : Option String}
    (hkeys : table.keysOf index = .ok keys) : stored.indexKeys index = .ok (.ofSchema keys) := by
  cases index with
  | none =>
    cases hkeys
    exact congrArg Except.ok hserves.keys
  | some name =>
    obtain ⟨found, hfound, rfl⟩ := map_eq_ok_iff.mp hkeys
    have hfind : ∀ indexes : List IndexSchema,
        (indexes.find? fun index => index.name = name) = some found →
        Entries.find? (indexes.map fun index => (index.name, KeyNames.ofSchema index.keys)) name =
          some (.ofSchema found.keys) := by
      intro indexes
      induction indexes with
      | nil => simp
      | cons first rest ih =>
        intro hheld
        rw [List.map_cons, Entries.find?_cons]
        by_cases hname : first.name = name
        · rw [List.find?_cons_of_pos (by simpa using hname)] at hheld
          cases hheld
          rw [if_pos hname]
        · rw [List.find?_cons_of_neg (by simpa using hname)] at hheld
          rw [if_neg hname, ih hheld]
    have hindex : (table.indexes.find? fun index => index.name = name) = some found := by
      unfold TableSchema.requireIndex at hfound
      split at hfound
      · cases hfound
        assumption
      · cases hfound
    rw [StoredTable.indexKeys, StoredTable.requireIndex, hserves.indexes, hfind _ hindex]

/-- A request reads pages of the candidates of a search, wherever the pages start. -/
structure Asks (table : TableSchema) (stored : StoredTable) (search : Search)
    (candidates : List Item) (paths : List (List String)) (request : PagedRequest) : Prop where
  shows : table.Shows search.common.projection paths
  index : request.read.index = search.common.index
  pages : ∀ start limit, IsLimit limit → Pages table stored candidates
    (search.common.keeps table) (Item.shown paths) (request.paged start limit)

theorem exists_asks (hserves : stored.Serves table)
    (hkeys : table.keysOf search.common.index = .ok keys)
    (horder : ∀ range, keys.range = some range →
      RangeOrder range.wireName stored.items ascends)
    {request : PagedRequest} (hrequest : search.request table = .ok request) :
    ∃ paths, Asks table stored search (search.candidates stored keys ascends) paths request := by
  have hindex := indexKeys_of_serves hserves hkeys
  cases search with
  | query wanted =>
    obtain ⟨built, hbuilt, rfl⟩ := map_eq_ok_iff.mp hrequest
    obtain ⟨paths, text, predicate, hasks, hname, hforward, htext, hparse, hselects⟩ :=
      RecordQuery.asks_request hkeys hbuilt
    refine ⟨paths, hasks.paths, hasks.index, fun start limit hlimit => ⟨hname, hlimit, ?_, ?_⟩⟩
    · have hrange : ∀ range, (KeyNames.ofSchema keys).range = some range →
          RangeOrder range stored.items ascends := by
        intro range hrange
        obtain ⟨field, hfield, rfl⟩ := Option.map_eq_some_iff.mp hrange
        exact horder field hfield
      have hselect := StoredTable.select_eq wanted.forward hselects hrange
      exact PagedRequest.candidates?_query (hasks.index ▸ hindex) htext hparse
        ((congrArg (stored.select _ predicate) hforward).trans hselect)
    · have hreading := reading_of_asks hasks
      exact hreading
  | scan wanted =>
    obtain ⟨built, hbuilt, rfl⟩ := map_eq_ok_iff.mp hrequest
    obtain ⟨paths, hasks, hname, hsegment, htotal⟩ := RecordScan.asks_request hbuilt
    refine ⟨paths, hasks.paths, hasks.index, fun start limit hlimit => ⟨hname, hlimit, ?_, ?_⟩⟩
    · change (do
        let keys ← stored.indexKeys built.read.page.index
        return stored.segment keys (built.segment.getD 0).toNat
          (max (built.total.getD 1) 1).toNat) = _
      change stored.indexKeys wanted.search.index = _ at hindex
      rw [hasks.index, hindex, ok_bind, hsegment, htotal]
      obtain ⟨base, segment, total⟩ := wanted
      cases segment with
      | none =>
        cases total with
        | none => exact congrArg Except.ok (StoredTable.segment_one _ _)
        | some total => rfl
      | some segment => rfl
    · have hreading := reading_of_asks hasks
      exact hreading

theorem subperm_candidates (search : Search) :
    (search.candidates stored keys ascends).Subperm stored.items := by
  have hfiltered : ∀ {held : List Item}, held.Sublist stored.items → held.Subperm stored.items :=
    fun hsublist => ⟨_, List.Perm.refl _, hsublist⟩
  cases search with
  | query wanted =>
    exact ⟨_, (StoredTable.perm_inOrder _ _ _ _).symm, List.filter_sublist⟩
  | scan wanted =>
    obtain ⟨base, segment, total⟩ := wanted
    cases segment with
    | none =>
      cases total with
      | none => exact hfiltered List.filter_sublist
      | some total => exact hfiltered (StoredTable.sublist_segment _ _ _ _)
    | some segment => exact hfiltered (StoredTable.sublist_segment _ _ _ _)

theorem current_shown {item : Item} {paths : List (List String)}
    (hcurrent : table.Current item) (hpaths : table.Shows search.common.projection paths) :
    table.Current (item.shown paths) := by
  unfold Item.shown
  generalize search.common.projection = names at hpaths
  cases hpaths with
  | whole => exact hcurrent
  | some hnames hall =>
    split
    · exact hcurrent
    · refine hcurrent.restrict ?_ fun hlocking => ?_
      · exact (hall _).mpr (.inr ⟨_, by simp [TableSchema.companions], rfl⟩)
      · exact (hall _).mpr (.inr ⟨_, by simp [TableSchema.companions, hlocking], rfl⟩)

end Requests

/-! ### Reading searches -/

/-- A session whose table holds fewer than `2 ^ 31` items under distinct keys, all of them at the
version of the table. -/
structure Served (session : Session) (table : TableSchema) (stored : StoredTable) : Prop where
  held : session.store.table? table.name = some stored
  serves : stored.Serves table
  keyed : stored.Keyed
  small : stored.items.length < 2 ^ 31
  current : ∀ item ∈ stored.items, table.Current item

/-- The records that a search reads of items: those that pass its filter, as its projection shows
them. -/
def records (search : Search) (paths : List (List String)) (items : List Item) :
    Except Error (List Record) :=
  ((items.filter (search.common.keeps table)).map (Item.shown paths)).mapM (Record.ofItem table)

/-- What a search read of the candidates seen, with others left. Nothing was stored, the store was
asked for one page for each report of progress, and only the last report can have been enough. -/
structure Reads (isDone : List Nat → Bool) (session later : Session) (search : Search)
    (paths : List (List String)) (seen rest : List Item) (read : Records) : Prop where
  records : search.records table paths seen = .ok read.records
  count : read.count.toInt = read.records.length
  scanned : read.scanned.toInt = seen.length
  tables : later.store.tables = session.store.tables
  searches : later.store.searches = session.store.searches + read.progress.length
  progress : ∃ earlier, read.progress = earlier ++ [read.records.length] ∧ Ongoing isDone earlier
  ended : rest = [] → read.lastKey = none
  stopped : rest ≠ [] → isDone read.progress = true ∧ read.lastKey.isSome = true

section Reading

variable {client table stored keys ascends} {search : Search} {session : Session}

theorem send_eq (search : Search) (isDone : List Nat → Bool) :
    search.send client isDone = (do
      let table ← (client.table search.common.table : Except Error TableSchema)
      let request ← (search.request table : Except Error PagedRequest)
      client.readAll table search.common.writesBack isDone request) := by
  cases search with
  | query wanted =>
    change client.queryUntil isDone wanted = _
    unfold Client.queryUntil
    refine bind_congr fun table => ?_
    change _ = liftM ((wanted.request table).map PagedRequest.query) >>= _
    cases wanted.request table <;> rfl
  | scan wanted =>
    change client.scanUntil isDone wanted = _
    unfold Client.scanUntil
    refine bind_congr fun table => ?_
    change _ = liftM ((wanted.request table).map PagedRequest.scan) >>= _
    cases wanted.request table <;> rfl

theorem run_send {request : PagedRequest} (isDone : List Nat → Bool)
    (htable : client.table search.common.table = .ok table)
    (hrequest : search.request table = .ok request) :
    (search.send client isDone).run.run session =
      (client.readPages table search.common.writesBack isDone
        (2 * (session.store.items table.name).length + 2) request .none).run.run session := by
  have hread := run_except (client.table search.common.table) session
  have hbuild := run_except (search.request table) session
  rw [htable] at hread
  rw [hrequest] at hbuild
  rw [send_eq, htable, run_bind_of_ok hread, hrequest, run_bind_of_ok hbuild]
  rfl

theorem run_send_of_refused {error : Error} (isDone : List Nat → Bool)
    (htable : client.table search.common.table = .ok table)
    (hrefused : search.request table = .error error) :
    (search.send client isDone).run.run session = (.error error, session) := by
  have hread := run_except (client.table search.common.table) session
  have hbuild := run_except (search.request table) session
  rw [htable] at hread
  rw [hrefused] at hbuild
  rw [send_eq, htable, run_bind_of_ok hread, hrefused, run_bind_of_error hbuild]

theorem common_paged (search : Search) (start : Option Item) (limit : Option Int) :
    (search.paged start limit).common = { search.common with start, limit } := by
  cases search <;> rfl

theorem records_append {paths : List (List String)} {first second : List Item}
    {left right : List Record} (hfirst : search.records table paths first = .ok left)
    (hsecond : search.records table paths second = .ok right) :
    search.records table paths (first ++ second) = .ok (left ++ right) := by
  rw [records, List.filter_append, List.map_append]
  exact mapM_append_ok hfirst hsecond

theorem Served.exists_records {paths : List (List String)} {items : List Item}
    (hserved : Served session table stored) (hitems : ∀ item ∈ items, item ∈ stored.items)
    (hpaths : table.Shows search.common.projection paths) :
    ∃ read, search.records table paths items = .ok read := by
  refine exists_mapM fun item hmem => ?_
  obtain ⟨candidate, hcandidate, rfl⟩ := List.mem_map.mp hmem
  exact (current_shown (hserved.current _ (hitems _ (List.mem_of_mem_filter hcandidate)))
    hpaths).reads

/-- A search that starts after some of its candidates reads those that follow. -/
theorem Asks.exists_reads {request : PagedRequest} {paths : List (List String)}
    (before : List Item) {rest : List Item} (start : Option Item) {limit : Option Int}
    (hasks : Asks table stored search (search.candidates stored keys ascends) paths request)
    (htable : client.table search.common.table = .ok table)
    (hrequest : search.request table = .ok request) (hserved : Served session table stored)
    (hsplit : search.candidates stored keys ascends = before ++ rest)
    (hstart : start = before.getLast?.map (stored.pageKey search.common.index))
    (hlimit : IsLimit limit) (isDone : List Nat → Bool) :
    ∃ read later seen left,
      ((search.paged start limit).send client isDone).run.run session = (.ok read, later) ∧
      rest = seen ++ left ∧
      Reads table isDone session later search paths seen left read ∧
      ∀ key, read.lastKey = some key →
        some key = (before ++ seen).getLast?.map (stored.pageKey search.common.index) := by
  have hsubperm : (search.candidates stored keys ascends).Subperm stored.items :=
    subperm_candidates search
  have hmem : ∀ item ∈ search.candidates stored keys ascends, item ∈ stored.items := by
    obtain ⟨held, hperm, hsublist⟩ := hsubperm
    exact fun item hitem => hsublist.subset (hperm.mem_iff.mpr hitem)
  have hcurrent : ∀ item ∈ search.candidates stored keys ascends,
      table.Current (item.shown paths) := fun item hitem =>
    current_shown (hserved.current item (hmem item hitem)) hasks.shows
  have hlength : rest.length ≤ stored.items.length := by
    obtain ⟨held, hperm, hsublist⟩ := hsubperm
    have hall := hsublist.length_le
    rw [hperm.length_eq, hsplit, List.length_append] at hall
    omega
  have hitems : session.store.items table.name = stored.items := by
    rw [Store.items, hserved.held]
    rfl
  have hrun : ((search.paged start limit).send client isDone).run.run session =
      (client.readPages table (search.paged start limit).common.writesBack isDone
        (2 * (session.store.items table.name).length + 2) (request.paged start limit)
        .none).run.run session :=
    run_send isDone (by rw [common_paged]; exact htable) (by rw [request_paged, hrequest]; rfl)
  have hbound : rest.length < 2 * (session.store.items table.name).length + 2 := by
    rw [hitems]
    omega
  have hnothing : Client.Holds table (search.common.keeps table) (fun item => item.shown paths) [] .none :=
    ⟨rfl, rfl, rfl⟩
  obtain ⟨read, later, seen, left, hread, hrest, hholds, hends⟩ :=
    Client.run_readPages client (hserved.keyed.distinct_of_subperm hsubperm) hcurrent isDone
      (search.paged start limit).common.writesBack (hasks.pages start limit hlimit) hsplit
      (by simp [hasks.index, hstart]) hbound hserved.held hnothing
      (fun earlier hprefix hne => absurd (List.prefix_nil.mp hprefix) hne)
  have hseen : seen.length ≤ rest.length := by
    rw [hrest, List.length_append]
    omega
  have hkept : read.records.length ≤ seen.length := by
    have hrecords := (mapM_ok hholds.records).length_eq
    rw [List.length_map] at hrecords
    rw [← hrecords]
    exact List.length_filter_le _ _
  have hsmall := hserved.small
  refine ⟨read, later, seen, left, hrun.trans hread, hrest, ⟨hholds.records, ?_, ?_, hends.tables,
    hends.searches, hends.progress, hends.ended, fun hleft => ?_⟩, fun key hkey => ?_⟩
  · rw [hholds.count, Int32.toInt_ofNat_of_lt (by omega)]
  · rw [hholds.scanned, Int32.toInt_ofNat_of_lt (by rw [List.nil_append]; omega), List.nil_append]
  · obtain ⟨hdone, hne, hkey⟩ := hends.stopped hleft
    refine ⟨hdone, ?_⟩
    rw [hkey, Option.isSome_map, List.getLast?_eq_some_getLast hne]
    rfl
  · by_cases hleft : left = []
    · rw [hends.ended hleft] at hkey
      cases hkey
    · obtain ⟨_, _, hlast⟩ := hends.stopped hleft
      rw [← hkey, hlast, PagedRequest.index_paged, hasks.index]

/-- Whatever the pages of a search hold, it reads the same records in the same order, and when it is
stopped it can be resumed for those that are left. -/
structure Delivers (client : Client) (table : TableSchema) (session : Session) (search : Search)
    (paths : List (List String)) (candidates : List Item) (all : List Record)
    (limit : Option Int) : Prop where
  whole : ∃ read later,
    ((search.paged none limit).send client fun _ => false).run.run session = (.ok read, later) ∧
      Reads table (fun _ => false) session later search paths candidates [] read ∧
      read.records = all
  stopped : ∀ isDone, ∃ read later seen rest,
    ((search.paged none limit).send client isDone).run.run session = (.ok read, later) ∧
      candidates = seen ++ rest ∧ Reads table isDone session later search paths seen rest read ∧
      ∀ key, read.lastKey = some key → ∀ size, IsLimit size → ∃ more last,
        ((search.paged (some key) size).send client fun _ => false).run.run later = (.ok more, last) ∧
          Reads table (fun _ => false) later last search paths rest [] more ∧
          read.records ++ more.records = all

/-- Without a page that is enough a search reads all that is left. -/
theorem Reads.eq_nil {later : Session} {paths : List (List String)} {seen rest : List Item}
    {read : Records} (hreads : Reads table (fun _ => false) session later search paths seen rest read) :
    rest = [] := by
  by_contra hrest
  cases (hreads.stopped hrest).1

/-- The records that are read of searches are those of their candidates, however long the pages are
and wherever reading is stopped. A search that cannot be asked for is refused before any call, and
the segments of a scan divide its candidates among them. -/
theorem delivers_candidates {client : Client} {session : Session} {table : TableSchema}
    {stored : StoredTable} {keys : KeySchema} {ascends : Item → Item → Bool} (search : Search)
    (htable : client.table search.common.table = .ok table)
    (hkeys : table.keysOf search.common.index = .ok keys) (hserved : Served session table stored)
    (horder : ∀ range, keys.range = some range →
      RangeOrder range.wireName stored.items ascends) :
    (∀ error, search.request table = .error error → ∀ start limit isDone,
      ((search.paged start limit).send client isDone).run.run session = (.error error, session)) ∧
    (∀ request, search.request table = .ok request → ∃ paths all,
      table.Shows search.common.projection paths ∧
      search.records table paths (search.candidates stored keys ascends) = .ok all ∧
      ∀ limit, IsLimit limit → Delivers client table session search paths
        (search.candidates stored keys ascends) all limit) ∧
    ∀ (base : RecordSearch) (total : Nat), 0 < total →
      ((List.range total).flatMap fun segment : Nat =>
        (Search.scan ⟨base, some segment, some total⟩).candidates stored keys ascends).Perm
        ((Search.scan ⟨base, none, none⟩).candidates stored keys ascends) := by
  refine ⟨fun error hrefused start limit isDone => ?_, fun request hrequest => ?_, ?_⟩
  · have htableOf : client.table (search.paged start limit).common.table = .ok table := by
      rw [common_paged]
      exact htable
    refine run_send_of_refused isDone htableOf ?_
    rw [request_paged, hrefused]
    rfl
  · obtain ⟨paths, hasks⟩ := exists_asks hserved.serves hkeys horder hrequest
    have hsubperm : (search.candidates stored keys ascends).Subperm stored.items :=
      subperm_candidates search
    obtain ⟨held, hperm, hsublist⟩ := hsubperm
    obtain ⟨all, hall⟩ := hserved.exists_records
      (fun item hitem => hsublist.subset (hperm.mem_iff.mpr hitem)) hasks.shows
    refine ⟨paths, all, hasks.shows, hall, fun limit hlimit => ⟨?_, fun isDone => ?_⟩⟩
    · obtain ⟨read, later, seen, left, hrun, hsplit, hreads, _⟩ := hasks.exists_reads [] none
        htable hrequest hserved rfl rfl hlimit fun _ => false
      have hleft := hreads.eq_nil
      rw [hleft, List.append_nil] at hsplit
      rw [← hsplit, hleft] at hreads
      refine ⟨read, later, hrun, hreads, ?_⟩
      exact Except.ok.inj (hreads.records.symm.trans hall)
    · obtain ⟨read, later, seen, rest, hrun, hsplit, hreads, hlast⟩ := hasks.exists_reads
        [] none htable hrequest hserved rfl rfl hlimit isDone
      refine ⟨read, later, seen, rest, hrun, hsplit, hreads, fun key hkey size hsize => ?_⟩
      have hlater : Served later table stored := by
        refine ⟨?_, hserved.serves, hserved.keyed, hserved.small, hserved.current⟩
        rw [Store.table?, hreads.tables]
        exact hserved.held
      obtain ⟨more, last, next, left, hresumed, hrest, hmore, _⟩ := hasks.exists_reads
        seen (some key) htable hrequest hlater hsplit (hlast key hkey) hsize fun _ => false
      have hleft := hmore.eq_nil
      rw [hleft, List.append_nil] at hrest
      rw [← hrest, hleft] at hmore
      refine ⟨more, last, hresumed, hmore, ?_⟩
      have hboth := records_append hreads.records hmore.records
      rw [← hsplit] at hboth
      exact Except.ok.inj (hboth.symm.trans hall)
  · intro base total htotal
    have hcandidates : ∀ segment : Nat,
        (Search.scan ⟨base, some segment, some total⟩).candidates stored keys ascends =
          stored.segment (.ofSchema keys) segment total := by
      intro segment
      change stored.segment _ _ (max (total : Int) 1).toNat = _
      rw [show (max (total : Int) 1).toNat = total by omega]
      rfl
    rw [funext hcandidates]
    exact StoredTable.perm_segments stored (.ofSchema keys) htotal

end Reading

end Search

/-! ### A weather station -/

/-- Temperatures by station and hour. -/
def weatherTable : TableSchema :=
  let fieldOf (name : String) (element : ElementType) : FieldSchema :=
    { (default : FieldSchema) with
      name, wireName := name, type := .scalar element, persist := true, serialize := true }
  { (default : TableSchema) with
    name := "weather"
    rootType := "reading"
    version := 1
    versionAttribute := "version"
    keys := ⟨⟨"station", "station", .string⟩, some ⟨"hour", "hour", .long⟩⟩
    types := [⟨"reading", [fieldOf "station" .string, fieldOf "hour" .long,
      fieldOf "degrees" .long]⟩] }

def readingAt (hour degrees : Int64) : Item :=
  [("degrees", .number (toString degrees.toInt)), ("hour", .number (toString hour.toInt)),
    ("station", .string "north"), ("version", .number "1")]

/-- What the station measured, with the ninth hour reported late. -/
def weather : StoredTable where
  keys := ⟨"station", some "hour"⟩
  indexes := []
  items := [readingAt 10 21, readingAt 9 18]
  units := 1

def weatherClient : Client :=
  ⟨⟨[weatherTable], []⟩, default⟩

/-- The warm hours, the latest ones first. -/
def warmHours : RecordQuery where
  search := { (default : RecordSearch) with
    table := "weather"
    filter := some (.leaf "degrees" (.compare .greater (.number (.integer 15)))) }
  hash := .string "north"
  range := none
  forward := false

/-- The hour of an item of the station. -/
def hourOf (item : Item) : Int64 :=
  if item = readingAt 9 18 then 9 else 10

theorem Search.delivers_candidates_weather :
    ∃ paths all, (Search.query warmHours).records weatherTable paths
        [readingAt 10 21, readingAt 9 18] = .ok all ∧
      ∀ limit, IsLimit limit → Delivers weatherClient weatherTable
        (Session.start ⟨[("weather", weather)], [], 0⟩) (Search.query warmHours) paths
        [readingAt 10 21, readingAt 9 18] all limit := by
  have hserved : Served (Session.start ⟨[("weather", weather)], [], 0⟩) weatherTable weather := by
    have hitem : ∀ item ∈ weather.items, item = readingAt 10 21 ∨ item = readingAt 9 18 := by
      simp [weather]
    refine ⟨rfl, ⟨rfl, rfl⟩, ⟨fun item hmem => ?_, by decide +kernel⟩, by decide, fun item hmem => ?_⟩
    · rcases hitem item hmem with rfl | rfl <;> exact ⟨_, rfl⟩
    · rcases hitem item hmem with rfl | rfl <;> exact ⟨⟨some 1, by rfl, rfl⟩, ⟨_, by rfl⟩⟩
  have horder : RangeOrder "hour" weather.items fun left right =>
      (hourOf left).toInt ≤ (hourOf right).toInt := by
    refine .integers hourOf fun item hmem value hvalue => ?_
    have hlate : hourOf (readingAt 9 18) = 9 := by decide +kernel
    have hearly : hourOf (readingAt 10 21) = 10 := by decide +kernel
    rcases (by simpa [weather] using hmem : item = readingAt 10 21 ∨ item = readingAt 9 18)
      with rfl | rfl
    · cases hvalue
      exact ⟨_, rfl, by rw [hearly, Number.parse?_toString]⟩
    · cases hvalue
      exact ⟨_, rfl, by rw [hlate, Number.parse?_toString]⟩
  have hcandidates : (Search.query warmHours).candidates weather weatherTable.keys
      (fun left right => (hourOf left).toInt ≤ (hourOf right).toInt) =
      [readingAt 10 21, readingAt 9 18] := by
    have hselected : (weather.items.filter fun item =>
        hasAllKeys (.ofSchema weatherTable.keys) item &&
          warmHours.selects weatherTable.keys item) = [readingAt 10 21, readingAt 9 18] := by
      decide +kernel
    have hnot : ¬ (hourOf (readingAt 10 21)).toInt ≤ (hourOf (readingAt 9 18)).toInt := by
      decide +kernel
    change (List.mergeSort _ _).reverse = _
    rw [hselected]
    simp [List.mergeSort, hnot]
  have hrequest : ∃ request, (Search.query warmHours).request weatherTable = .ok request :=
    ⟨_, by rfl⟩
  obtain ⟨_, hdelivers, _⟩ := @delivers_candidates weatherClient _ _ _ _ _ (Search.query warmHours)
    rfl rfl hserved fun range hrange => by
      cases hrange
      exact horder
  obtain ⟨request, hrequest⟩ := hrequest
  obtain ⟨paths, all, _, hrecords, hlimits⟩ := hdelivers request hrequest
  rw [hcandidates] at hrecords hlimits
  exact ⟨paths, all, hrecords, hlimits⟩

end RecordStore
