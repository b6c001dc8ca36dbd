import RecordStore.Proofs.Batch.Encode
import RecordStore.Proofs.Locking.Run
import RecordStore.Proofs.Migration.Race
import RecordStore.Proofs.Store.Reachable

/-!
# Write-backs of deleted items

Before a migrated record is written back other clients may delete the item that it was made from.
Where the write-back requires a revision it is then a conflict, and the item stays deleted. Where it
requires none, on tables without locking and for items that never had a revision, a missing item is
below the version of its table like a stale one, and the record is stored.
-/

namespace RecordStore

open Expression (Builder Building Clauses)

/-! ### Stores that are reached -/

theorem Store.outlasts_serves (registry : Registry) :
    Outlasts fun store => store.Serves registry where
  recorded := by
    intro store calls hserves table hmem
    obtain ⟨stored, hholds⟩ := hserves table hmem
    exact ⟨stored, hholds.of_tables_eq rfl⟩
  rounds := by
    intro store rounds hserves table hmem
    obtain ⟨stored, hholds⟩ := hserves table hmem
    exact ⟨stored, hholds.of_tables_eq rfl⟩
  rebinds := by
    intro store name held later hserves hheld hrebinds table hmem
    obtain ⟨stored, hholds⟩ := hserves table hmem
    by_cases hname : table.name = name
    · subst hname
      obtain rfl := Option.some.inj (hholds.table?_eq.symm.trans hheld)
      exact ⟨later, hholds.of_setTable rfl hrebinds.keys_eq⟩
    · exact ⟨stored, (table?_setTable_of_ne store later hname).trans hholds.table?_eq,
        hholds.keys_eq⟩

/-- A store that is reached keeps every table of its registry. -/
theorem Store.Reachable.serves {registry : Registry} {units : Int64} {store : Store}
    (htables : Registry.Tables registry.tables) (hreachable : Reachable registry units store) :
    store.Serves registry :=
  hreachable.preserved (outlasts_serves registry) (serves_empty htables units)

/-- What requests of clients make of a store. -/
def Store.afterAll (store : Store) (requests : List StoreRequest) : Store :=
  requests.foldl (fun store request => (request.make.run.run store).2) store

theorem Store.Reachable.afterAll {registry : Registry} {units : Int64} {store : Store}
    (hreachable : Reachable registry units store) (requests : List StoreRequest) :
    Reachable registry units (store.afterAll requests) := by
  induction requests generalizing store with
  | nil => exact hreachable
  | cons request rest ih => exact ih (hreachable.after request)

variable {registry : Registry} {table : TableSchema}

/-! ### Conditions of write-backs -/

/-- Whether writing a record requires a revision of the item that it replaces. -/
def TableSchema.RequiresRevision (table : TableSchema) (record : Record) : Prop :=
  table.optimisticLocking = true ∧ record.revision ≠ 0

instance (table : TableSchema) (record : Record) : Decidable (table.RequiresRevision record) :=
  inferInstanceAs (Decidable (_ ∧ _))

/-- Whether a record is written back in the place of an item, as the store tests it. -/
def TableSchema.acceptsBack (table : TableSchema) (record : Record) (item : Item) : Bool :=
  (!decide (table.RequiresRevision record) || table.revisionTest record.revision item) &&
    table.staleTest item

theorem TableSchema.acceptsBack_nil (table : TableSchema) (record : Record) :
    table.acceptsBack record [] = !decide (table.RequiresRevision record) := by
  unfold acceptsBack
  rw [revisionTest_nil, Bool.or_false]
  exact Bool.and_true _

theorem PreparedPut.adds_requireBack (table : TableSchema) (record : Record) :
    (require table record.revision .standard true).Adds fun _ added =>
      ∀ item, added.meets item = table.acceptsBack record item := by
  have hrevision : Building.Adds (table.requireRevision record.revision) fun _ added =>
      ∀ item, added.meets item =
        (!decide (table.RequiresRevision record) || table.revisionTest record.revision item) := by
    by_cases hrequires : table.RequiresRevision record
    · apply (table.adds_requireRevision hrequires.1 hrequires.2).mono
      rintro _ added rfl item
      simp [Clauses.meets, Clauses.ofCondition, hrequires]
    · have hnone : ¬ (table.optimisticLocking && decide (record.revision ≠ 0)) = true := by
        simpa [TableSchema.RequiresRevision] using hrequires
      unfold TableSchema.requireRevision
      rw [if_neg hnone]
      apply Building.Adds.pure
      intro item
      simp [Clauses.meets, Clauses.none, hrequires]
  apply hrevision.bind
  intro _ first hfirst
  apply (Builder.adds_requireAbsentOrLess (List.cons_ne_nil _ _) _).mono
  rintro _ added rfl item
  have happend : (first ++ Clauses.ofCondition table.staleTest).meets item =
      (first.meets item && table.staleTest item) := by
    simp [Clauses.meets, Clauses.ofCondition]
  exact happend.trans (congrArg (· && table.staleTest item) (hfirst item))

/-- The put of a write-back is applied where the item under its key is accepted, and rejected
anywhere else. -/
theorem PreparedPut.put_back {record : Record} {prepared : PreparedPut} {stored : StoredTable}
    (haccepted : table.Accepted) (hprepare : prepare table record .standard true = .ok prepared)
    (hkeys : stored.keys = .ofSchema table.keys) :
    stored.put prepared.item prepared.compiled.guard.condition prepared.compiled.guard.bindings =
      .ok (if table.acceptsBack record ((stored.find? prepared.key).getD []) then
        .applied (stored.store prepared.key prepared.item, stored.find? prepared.key)
        else .rejected) := by
  obtain ⟨_, hitem, _, builder, hbuilt, hcompiled⟩ := prepare_ok haccepted hprepare
  obtain ⟨clauses, haccepts, hreads⟩ := (adds_requireBack table record).run_ok hbuilt
  rw [← hkeys] at hitem
  have hmeets := hreads.meets ((stored.find? prepared.key).getD [])
  rw [haccepts] at hmeets
  rw [hcompiled]
  exact StoredTable.put_of_meets hitem hmeets

section Puts

variable {record : Record} {options : SaveOptions} {isMigrated : Bool} {prepared : PreparedPut}
  {store last : Store} {stored : StoredTable} {outcome : Except Error Record}

theorem Client.PutEnds.of_rejected
    (hends : PutEnds table record options isMigrated store last outcome)
    (hholds : store.Holds table stored)
    (hprepare : PreparedPut.prepare table record options isMigrated = .ok prepared)
    (hput : stored.put prepared.item prepared.compiled.guard.condition
      prepared.compiled.guard.bindings = .ok .rejected) :
    (∃ context, outcome = .error (.writeConflict context)) ∧ last.tables = store.tables := by
  cases hends with
  | unsent hfailed => cases hfailed.symm.trans hprepare
  | applied hprepared htable hstep =>
    cases hprepared.symm.trans hprepare
    cases hholds.table?_eq.symm.trans htable
    cases hstep.symm.trans hput
  | rejected _ _ _ htables => exact ⟨⟨_, rfl⟩, htables⟩
  | refused hprepared hstep =>
    cases hprepared.symm.trans hprepare
    obtain ⟨fault, hfault⟩ := hstep stored hholds.table?_eq
    cases hfault.symm.trans hput

theorem Client.PutEnds.of_applied {left : StoredTable} {old : Option Item}
    (hends : PutEnds table record options isMigrated store last outcome)
    (hholds : store.Holds table stored)
    (hprepare : PreparedPut.prepare table record options isMigrated = .ok prepared)
    (hput : stored.put prepared.item prepared.compiled.guard.condition
      prepared.compiled.guard.bindings = .ok (.applied (left, old))) :
    outcome = .ok prepared.record ∧ last.tables = (store.setTable table.name left).tables := by
  cases hends with
  | unsent hfailed => cases hfailed.symm.trans hprepare
  | applied hprepared htable hstep htables =>
    cases hprepared.symm.trans hprepare
    cases hholds.table?_eq.symm.trans htable
    cases hstep.symm.trans hput
    exact ⟨rfl, htables⟩
  | rejected hprepared htable hstep =>
    cases hprepared.symm.trans hprepare
    cases hholds.table?_eq.symm.trans htable
    cases hstep.symm.trans hput
  | refused hprepared hstep =>
    cases hprepared.symm.trans hprepare
    obtain ⟨fault, hfault⟩ := hstep stored hholds.table?_eq
    cases hfault.symm.trans hput

end Puts

/-! ### Loads that find nothing -/

namespace PendingLoad

/-- The load is on its way: a store that was reached held the item that it fetched, and requests of
clients made the present store of it. -/
def Awaits (load : PendingLoad registry table) (units : Int64) (later : Store) : Prop :=
  ∃ store requests, Store.Reachable registry units store ∧ load.item ∈ store.items table.name ∧
    later = store.afterAll requests

/-- What comes of a write-back under a key that is unbound. -/
structure Misses (load : PendingLoad registry table) (session : Session)
    (prepared : PreparedPut) : Prop where
  rejected : table.RequiresRevision load.record → ∃ context last,
    load.put.run.run session = (.error (.writeConflict context), last) ∧
      load.finish.run.run session = (.ok load.record, last) ∧
      last.store.tables = session.store.tables ∧
      last.store.item? table.name prepared.key = none
  revived : ¬ table.RequiresRevision load.record → ∃ last,
    load.put.run.run session = (.ok prepared.record, last) ∧
      last.store.item? table.name prepared.key = some prepared.item ∧
      ∀ other, table.IsKey other → other ≠ prepared.key →
        last.store.item? table.name other = session.store.item? table.name other

theorem misses {load : PendingLoad registry table} {session : Session} {stored : StoredTable}
    {prepared : PreparedPut} (haccepted : table.Accepted)
    (hholds : session.store.Holds table stored)
    (hprepare : PreparedPut.prepare table load.record .standard true = .ok prepared)
    (hmissing : session.store.item? table.name prepared.key = none) :
    load.Misses session prepared := by
  have hfind : stored.find? prepared.key = none :=
    (Store.item?_eq hholds.table?_eq).symm.trans hmissing
  have hput := PreparedPut.put_back haccepted hprepare hholds.keys_eq
  rw [hfind, Option.getD_none, TableSchema.acceptsBack_nil] at hput
  rcases hrun : load.put.run.run session with ⟨outcome, last⟩
  have hends := Client.putEnds_of_run (load.client.ready_of_table hholds.table?_eq) hrun
  constructor
  case rejected =>
    intro hrequires
    rw [decide_eq_true hrequires] at hput
    obtain ⟨⟨context, rfl⟩, htables⟩ := hends.of_rejected hholds hprepare hput
    exact ⟨context, last, hrun, run_finish hrun, htables,
      (Store.item?_of_tables_eq htables _ _).trans hmissing⟩
  case revived =>
    intro hfree
    rw [decide_eq_false hfree] at hput
    obtain ⟨rfl, htables⟩ := hends.of_applied hholds hprepare hput
    obtain ⟨hkey, hitem, _⟩ := PreparedPut.prepare_ok haccepted hprepare
    have hleft := hholds.of_setTable htables rfl
    refine ⟨last, hrun, ?_, fun other hother hne => ?_⟩
    · rw [Store.item?_eq hleft.table?_eq]
      exact StoredTable.find?_store _ (KeyNames.hasKey_of_keyOf? hitem)
    · rw [Store.item?_eq hleft.table?_eq, Store.item?_eq hholds.table?_eq]
      exact StoredTable.find?_store_of_ne _ hitem (TableSchema.isKey_of_keyItem hkey) hother hne

end PendingLoad

/-- A write-back that requires a revision does not store a record again that was deleted while it was
migrated. One that requires none does, and nothing else changes. -/
theorem writeBack_missing {description : SchemaDescription}
    {registrations : List (String × Migration)} {tableName : String}
    {load : PendingLoad registry table} {units : Int64} {session : Session} {prepared : PreparedPut}
    (hbuild : Registry.build description registrations = .ok registry)
    (htable : registry.requireTable tableName = .ok table)
    (hawaits : load.Awaits units session.store)
    (hprepare : PreparedPut.prepare table load.record .standard true = .ok prepared)
    (hmissing : session.store.item? table.name prepared.key = none) :
    load.Misses session prepared := by
  obtain ⟨store, requests, hreachable, _, hafter⟩ := hawaits
  have hserves := (hreachable.afterAll requests).serves (Registry.tables_of_build hbuild)
  rw [← hafter] at hserves
  obtain ⟨stored, hholds⟩ :=
    hserves table (Registry.mem_of_requireTable htable)
  exact PendingLoad.misses (Registry.accepted_of_build hbuild htable) hholds hprepare hmissing

/-! ### The journal -/

/-- The journal on a table with locking. -/
def lockedDescription : SchemaDescription where
  tables := journalDescription.tables.map fun table => { table with optimisticLocking := true }

def lockedTable : TableSchema :=
  { journalTable with optimisticLocking := true }

def lockedRegistry : Registry :=
  match Registry.build lockedDescription journalSteps with
  | .ok registry => registry
  | .error _ => ⟨[], []⟩

/-- The stale entry of the journal, at its second revision. -/
def lockedEntry : Item :=
  [("_rev", .number "2"), ("_v", .number "1"), ("id", .string "e")]

def lockedLoad : PendingLoad lockedRegistry lockedTable where
  client := ⟨lockedRegistry, default, true, default⟩
  item := lockedEntry
  loaded := ⟨⟨"Entry", [("id", .string "e")], 2⟩, true⟩
  shares := rfl
  decoded := by
    have hupgrade : (upgrade lockedTable ((Client.mk lockedRegistry
        ⟨default, true, default⟩).registry.migrationsOf lockedTable.name)).run.run lockedEntry =
        (.ok (.migrated 1), [("_rev", .number "2"), ("_v", .number "3"), ("id", .string "e"),
          ("log", .list [.string "first", .string "second", .string "tied", .string "third",
            .string "first again", .string "third again"])]) := by
      cbv
    unfold Client.decode
    rw [hupgrade]
    rfl
  isMigrated := rfl
  allowed := rfl

def entryKey : Item :=
  [("id", .string "e")]

/-- A journal from which the entry that a load fetched was deleted. -/
def deletedEntry (registry : Registry) (entry : Item) : Session :=
  .start ((Store.empty registry 1).afterAll [.insert "journal" entry,
    .deleteItem ⟨"journal", some entryKey, ⟨none, none, none⟩, ⟨.nothing, false⟩⟩])

theorem awaits_deletedEntry {load : PendingLoad registry table} (hname : table.name = "journal")
    (hitem : load.item ∈
      ((Store.empty registry 1).afterAll [.insert "journal" load.item]).items "journal") :
    load.Awaits 1 (deletedEntry registry load.item).store := by
  refine ⟨_, [.deleteItem ⟨"journal", some entryKey, ⟨none, none, none⟩, ⟨.nothing, false⟩⟩],
    Store.Reachable.empty.afterAll [.insert "journal" load.item], ?_, rfl⟩
  rw [hname]
  exact hitem

theorem exists_prepare_of_isOk {record : Record}
    (hok : (PreparedPut.prepare table record .standard true).isOk = true)
    (haccepted : table.Accepted) (hkey : table.keyItem record = .ok entryKey) :
    ∃ prepared, PreparedPut.prepare table record .standard true = .ok prepared ∧
      prepared.key = entryKey := by
  cases hprepare : PreparedPut.prepare table record .standard true with
  | error error =>
    rw [hprepare] at hok
    cases hok
  | ok prepared =>
    refine ⟨prepared, rfl, ?_⟩
    exact Except.ok.inj ((PreparedPut.prepare_ok haccepted hprepare).1.symm.trans hkey)

/-- An entry at a revision stays deleted. -/
theorem writeBack_missing_locked :
    ∃ prepared, PreparedPut.prepare lockedTable lockedLoad.record .standard true = .ok prepared ∧
      prepared.key = entryKey ∧ lockedTable.RequiresRevision lockedLoad.record ∧
      lockedLoad.Awaits 1 (deletedEntry lockedRegistry lockedEntry).store ∧
      lockedLoad.Misses (deletedEntry lockedRegistry lockedEntry) prepared := by
  have hbuild : Registry.build lockedDescription journalSteps = .ok lockedRegistry := rfl
  have htable : lockedRegistry.requireTable "journal" = .ok lockedTable := rfl
  have hawaits : lockedLoad.Awaits 1 (deletedEntry lockedRegistry lockedEntry).store :=
    awaits_deletedEntry rfl (by decide +kernel)
  obtain ⟨prepared, hprepare, hkey⟩ := @exists_prepare_of_isOk lockedTable lockedLoad.record
    (by decide +kernel) (Registry.accepted_of_build hbuild htable) rfl
  refine ⟨prepared, hprepare, hkey, by decide, hawaits, ?_⟩
  apply writeBack_missing hbuild htable hawaits hprepare
  rw [hkey]
  decide +kernel

/-- An entry without a revision, on a table without locking, is stored again after it was deleted. -/
theorem writeBack_revives_journal :
    journalTable.migrationsEnabled = true ∧
      journalLoad.Awaits 1 (deletedEntry journalRegistry journalEntry).store ∧
      (deletedEntry journalRegistry journalEntry).store.item? "journal" entryKey = none ∧
      ∃ record last item,
        journalLoad.put.run.run (deletedEntry journalRegistry journalEntry) = (.ok record, last) ∧
        last.store.item? "journal" entryKey = some item := by
  have hbuild : Registry.build journalDescription journalSteps = .ok journalRegistry := rfl
  have htable : journalRegistry.requireTable "journal" = .ok journalTable := rfl
  have haccepted := Registry.accepted_of_build hbuild htable
  have hmissing : (deletedEntry journalRegistry journalEntry).store.item? "journal" entryKey = none := by
    decide +kernel
  refine ⟨rfl, awaits_deletedEntry rfl (by decide +kernel), hmissing, ?_⟩
  obtain ⟨prepared, hprepare, hkey⟩ := @exists_prepare_of_isOk journalTable journalLoad.record
    (by decide +kernel) haccepted rfl
  have hholds : (deletedEntry journalRegistry journalEntry).store.Holds journalTable
      ⟨⟨"id", none⟩, [], [], 1⟩ := ⟨rfl, rfl⟩
  obtain ⟨last, hrun, hstored, _⟩ :=
    (PendingLoad.misses haccepted hholds hprepare (hkey ▸ hmissing)).revived (by decide)
  rw [hkey] at hstored
  exact ⟨prepared.record, last, prepared.item, hrun, hstored⟩

end RecordStore
