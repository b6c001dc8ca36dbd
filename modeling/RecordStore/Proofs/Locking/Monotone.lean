import RecordStore.Proofs.Client.Transaction
import RecordStore.Proofs.Locking.Run
import RecordStore.Proofs.Migration.WriteBack

/-!
# Revisions along runs of writes

Clients save and update records of a table with optimistic locking, in any order and whatever
revisions they observed. A write that observed a revision is made only to an item at it, and leaves
the next one. A write of a record that was never stored tests no revision and leaves the first one,
so that the revision of an item falls only by such a write.
-/

namespace RecordStore

open Expression (Action Building Builder Clauses)

variable {table : TableSchema} {key other : Item} {stored left : StoredTable}

/-! ### Revisions in tables -/

section Tables

variable {observed revision : Int64}

theorem toInt_next_revision (hbounded : revision ≠ Int64.maxValue) :
    (revision + 1).toInt = revision.toInt + 1 := by
  have hlower := Int64.le_toInt revision
  have hupper := Int64.toInt_lt revision
  have hne : revision.toInt ≠ 2 ^ 63 - 1 := by
    rw [← Int64.toInt_maxValue]
    exact fun hsame => hbounded (Int64.toInt_inj.mp hsame)
  rw [Int64.toInt_add, Int64.toInt_one]
  apply Int.bmod_eq_of_le <;> omega

/-- An item that passes the test of an observed revision is at it. -/
theorem TableSchema.eq_of_revisionTest {item : Item}
    (hrevision : Codec.storedRevision table item = .ok revision)
    (htest : table.revisionTest observed item = true) : revision = observed := by
  unfold revisionTest at htest
  rw [Item.resolve?] at htest
  unfold Codec.storedRevision at hrevision
  cases hget : Item.get? item table.revisionAttribute with
  | none =>
    rw [hget] at htest
    cases htest
  | some held =>
    rw [hget] at htest hrevision
    change held.equal (Codec.revisionAttribute observed) = true at htest
    cases held with
    | number text =>
      cases hread : Decimal.readInt64? (String.ofList (Text.trim text.toList)) with
      | none => simp [hread] at hrevision
      | some found =>
        simp only [hread, Except.ok.injEq] at hrevision
        subst hrevision
        rw [equal_revisionAttribute hread] at htest
        exact of_decide_eq_true htest
    | null => cases htest
    | _ => cases hrevision

/-- What becomes of a table by a write that observed a revision: an item at the next one takes the
place of what is under the key, which is at the observed one where that is not zero. -/
inductive StoredTable.Revises (table : TableSchema) (key : Item) (observed : Int64)
    (stored : StoredTable) : StoredTable → Prop where
  | wrote {item : Item} (hkey : table.IsKey key)
      (hitem : (KeyNames.ofSchema table.keys).keyOf? item = some key)
      (hnext : Item.get? item table.revisionAttribute =
        some (Codec.revisionAttribute (observed + 1)))
      (hat : observed ≠ 0 → stored.IsAt table key observed) :
      Revises table key observed stored (stored.store key item)

/-- Under its key a write leaves the next revision, and elsewhere what was there. -/
theorem StoredTable.Revises.find? (hrevises : stored.Revises table key observed left)
    (hother : table.IsKey other) :
    (other ≠ key ∧ left.find? other = stored.find? other) ∨
      other = key ∧ (observed ≠ 0 → stored.IsAt table other observed) ∧
        ∃ item, left.find? other = some item ∧
          Codec.storedRevision table item = .ok (observed + 1) := by
  obtain ⟨hkey, hitem, hnext, hat⟩ := hrevises
  by_cases hsame : other = key
  · subst hsame
    exact .inr ⟨rfl, hat, _, find?_store _ (KeyNames.hasKey_of_keyOf? hitem),
      TableSchema.storedRevision_of_get? hnext⟩
  · exact .inl ⟨hsame, find?_store_of_ne _ hitem hkey hother hsame⟩

theorem StoredTable.Revises.keys_eq (hrevises : stored.Revises table key observed left) :
    left.keys = stored.keys := by
  obtain ⟨_, _, _, _⟩ := hrevises
  rfl

end Tables

/-- An item whose revision attribute is written by the codec is at the revision. -/
theorem Store.HoldsAt.of_get? {store : Store} {revision : Int64}
    (hget : (store.item? table.name key >>= fun item =>
      Item.get? item table.revisionAttribute) = some (Codec.revisionAttribute revision)) :
    store.HoldsAt table key revision := by
  obtain ⟨item, hitem, hrevision⟩ := Option.bind_eq_some_iff.mp hget
  exact ⟨item, hitem, TableSchema.storedRevision_of_get? hrevision⟩

/-! ### Saves -/

section Saves

variable {store last : Store} {outcome : Except Error Record}

/-- A save that observed a revision and is applied found the item at it. -/
theorem Client.PutEnds.isAt {record : Record} {overwrite isMigrated : Bool}
    (hends : PutEnds table record ⟨overwrite, true⟩ isMigrated store last outcome)
    (haccepted : table.Accepted) (hlocking : table.optimisticLocking = true)
    (hholds : store.Holds table stored) (hok : outcome.isOk = true)
    (hkey : table.keyItem record = .ok key) (hobserved : record.revision ≠ 0) :
    stored.IsAt table key record.revision := by
  cases hends with
  | unsent => cases hok
  | rejected => cases hok
  | refused => cases hok
  | applied hprepare htable hput =>
    obtain rfl := Option.some.inj (hholds.table?_eq.symm.trans htable)
    obtain ⟨hsame, hitem, _, builder, hbuilt, hcompiled⟩ :=
      PreparedPut.prepare_ok haccepted hprepare
    cases hkey.symm.trans hsame
    obtain ⟨clauses, hasks, hreads⟩ :=
      (PreparedPut.adds_require overwrite isMigrated hlocking hobserved).run_ok hbuilt
    rw [hcompiled] at hput
    rw [← hholds.keys_eq] at hitem
    rcases (hreads.fences hasks).meets_or stored _ with hmeets | ⟨_, hat⟩
    · rw [StoredTable.put_of_meets hitem hmeets] at hput
      cases hput
    · exact hat

/-- Putting a record with locking on leaves the tables as they were and fails, or writes the next
revision. -/
theorem Client.PutEnds.revises {record : Record} {overwrite isMigrated : Bool}
    (hends : PutEnds table record ⟨overwrite, true⟩ isMigrated store last outcome)
    (haccepted : table.Accepted) (hlocking : table.optimisticLocking = true)
    (hholds : store.Holds table stored) :
    (outcome.isOk = false ∧ last.tables = store.tables) ∨
      outcome.isOk = true ∧ ∃ key left, table.keyItem record = .ok key ∧ last.Holds table left ∧
        stored.Revises table key record.revision left := by
  rcases hends.stores haccepted hholds with hfailed | ⟨hok, item, key, hitem, hkey, hheld, htables⟩
  · exact .inl hfailed
  · refine .inr ⟨hok, key, _, hkey, hholds.of_setTable htables rfl, ?_⟩
    have hnext := Record.get?_revision_toItem hlocking hitem
    have hadvance : (PreparedPut.advance table record true).revision = record.revision + 1 := by
      rw [PreparedPut.advance, hlocking]
      rfl
    rw [hadvance] at hnext
    rw [hholds.keys_eq] at hheld
    exact .wrote (TableSchema.isKey_of_keyItem hkey) hheld hnext
      (hends.isAt haccepted hlocking hholds hok hkey)

end Saves

/-! ### Updates -/

/-- What an update asks of the counters: the next revision is assigned, and the observed one is
tested where it is not zero. -/
theorem Update.adds_counters_any (hlocking : table.optimisticLocking = true) (observed : Int64) :
    Building.Adds (do
      Update.requireVersion table
      if table.optimisticLocking then Update.advanceRevision table observed) fun _ added =>
      ∃ version test : Clauses, version.actions = [] ∧ test.actions = [] ∧
        (observed ≠ 0 → table.revisionTest observed ∈ test.conditions) ∧
        added = version ++ (.ofSet (.set [table.revisionAttribute]
          (.value (Codec.revisionAttribute (observed + 1)))) ++ test) := by
  rw [if_pos hlocking]
  by_cases hobserved : observed = 0
  · apply Update.adds_requireVersion.bind
    intro _ version hversion
    unfold Update.advanceRevision
    rw [if_neg (not_not.mpr hobserved)]
    apply (Builder.adds_setAttribute (List.cons_ne_nil _ _) _).bind
    rintro _ first rfl
    exact .pure ⟨version, .none, hversion, rfl, fun hne => absurd hobserved hne, rfl⟩
  · apply (Update.adds_counters hobserved).mono
    rintro _ added ⟨version, hversion, rfl⟩
    exact ⟨version, _, hversion, rfl, fun _ => List.mem_cons_self, rfl⟩

/-- What is registered with the next revision leaves it in the item. -/
theorem Update.get?_of_counters {builder : Builder} {user version test : Clauses} {observed : Int64}
    {expression : String} {item updated : Item}
    (hreads : builder.Reads (user ++ (version ++ (.ofSet (.set [table.revisionAttribute]
      (.value (Codec.revisionAttribute (observed + 1)))) ++ test))))
    (hversion : version.actions = []) (htest : test.actions = [])
    (huser : ∀ action ∈ user.actions, action.path.head? ≠ some table.revisionAttribute)
    (hwrites : builder.compile.update = some expression)
    (happly : Expression.applyUpdate item expression builder.compile.bindings = .ok updated) :
    Item.get? updated table.revisionAttribute = some (Codec.revisionAttribute (observed + 1)) := by
  obtain ⟨before, after, hactions, hafter⟩ := Update.actions_append hversion htest huser
  obtain ⟨text, htext, hparse⟩ := hreads.update (by rw [hactions]; simp)
  cases hwrites.symm.trans htext
  obtain ⟨parsed, hparsed, happly⟩ := bind_eq_ok_iff.mp happly
  cases hparse.symm.trans hparsed
  rw [hactions] at happly
  exact Expression.get?_of_applyActions happly hafter

/-- An update that is made to a table writes the next revision. -/
theorem Update.revises_update {update : Update} {builder : Builder} {expression : String}
    {updated : StoredTable.Updated} (haccepted : table.Accepted)
    (hlocking : table.optimisticLocking = true)
    (hrun : Builder.run "" (update.build table) = .ok ((), builder))
    (hwrites : builder.compile.update = some expression)
    (hkeys : stored.keys = .ofSchema table.keys) (hkey : table.IsKey key)
    (hupdate : stored.update key expression builder.compile.guard.condition
      builder.compile.guard.bindings = .ok (.applied (left, updated))) :
    stored.Revises table key update.object.base.revision left := by
  have hexact : stored.exactKey key = .ok key :=
    StoredTable.exactKey_of_keyOf? (by rw [hkeys]; exact hkey)
  obtain ⟨user, _, hreads, ⟨version, test, hversion, htest, hasks, rfl⟩, huser⟩ :=
    Update.reads_append (ObjectUpdate.adds_compile haccepted _)
      (Update.adds_counters_any hlocking _) hrun hwrites
  obtain ⟨hmeets, happly, hitem, rfl⟩ := StoredTable.update_applied hexact hupdate
  rw [hkeys] at hitem
  refine .wrote hkey hitem ?_ fun hobserved => ?_
  · exact Update.get?_of_counters hreads hversion htest (fun action hmem => (huser action hmem).2)
      hwrites happly
  · have hfences := hreads.fences (List.mem_append_right _ (List.mem_append_right _
      (List.mem_append_right _ (hasks hobserved))))
    rcases hfences.meets_or stored key with hrejects | ⟨_, hat⟩
    · cases hrejects.symm.trans hmeets
    · exact hat

/-- An update that writes something and is answered was made to its table. -/
theorem Client.applied_of_sendUpdate {client : Client} {update : Update} {session last : Session}
    {record : Record} (hready : client.Ready ⟨table.name, none, .write⟩ session)
    (hwrites : update.writes table = .ok true)
    (hrun : (client.sendUpdate table update).run.run session = (.ok record, last)) :
    ∃ builder expression stored left updated,
      Builder.run "" (update.build table) = .ok ((), builder) ∧
      builder.compile.update = some expression ∧
      session.store.table? table.name = some stored ∧
      stored.update update.key expression builder.compile.guard.condition
        builder.compile.guard.bindings = .ok (.applied (left, updated)) ∧
      last.store.tables = (session.store.setTable table.name left).tables := by
  unfold sendUpdate at hrun
  cases hcompile : update.compile table with
  | error error =>
    rw [run_bind_of_error ((run_except _ _).trans (congrArg (·, session) hcompile))] at hrun
    cases hrun
  | ok compiled =>
    rw [run_bind_of_ok ((run_except _ _).trans (congrArg (·, session) hcompile))] at hrun
    have hsome : compiled.update.isSome = true :=
      (Except.ok.inj ((update.writes_eq hcompile).symm.trans hwrites))
    obtain ⟨expression, hexpression⟩ := Option.isSome_iff_exists.mp hsome
    obtain ⟨⟨⟨⟩, builder⟩, hbuilt, hdone⟩ := bind_eq_ok_iff.mp hcompile
    cases hdone
    rw [hexpression] at hrun
    obtain ⟨answer, between, hcall, hwrote⟩ := @wrote_updateItem client session
      ⟨table.name, some update.key, some expression, builder.compile.guard, ⟨.new, true⟩⟩
      expression rfl hready update.key
    cases hwrote with
    | rejected =>
      rw [run_bind_of_error hcall] at hrun
      cases hrun
    | refused =>
      rw [run_bind_of_error hcall] at hrun
      cases hrun
    | applied htable hstep htables =>
      rw [run_bind_of_ok hcall] at hrun
      obtain rfl : between = last := congrArg Prod.snd ((run_except _ _).symm.trans hrun)
      exact ⟨builder, expression, _, _, _, hbuilt, hexpression, htable, hstep, htables⟩

/-! ### Runs -/

namespace Writing

/-- What a client did, and what it was answered. -/
inductive Event where
  | saved (record : Record) (answer : Except Error Record)
  | updated (update : Update) (answer : Except Error Record)

namespace Event

/-- The revision at which the record was read, zero where it was never stored. -/
def observed : Event → Int64
  | saved record _ => record.revision
  | updated update _ => update.object.base.revision

def key? (table : TableSchema) : Event → Option Item
  | saved record _ => (table.keyItem record).toOption
  | updated update _ => some update.key

/-- The client was answered, and the request is one that writes. -/
def Applied (table : TableSchema) : Event → Prop
  | saved _ answer => answer.isOk = true
  | updated update answer => update.writes table = .ok true ∧ answer.isOk = true

end Event

/-- A request of some client with the registry, with locking on. Each has a session of its own on
the shared store. -/
inductive Step (registry : Registry) (table : TableSchema) : Store → Event → Store → Prop where
  | save {client : Client} {record : Record} {overwrite : Bool} {session later : Session}
    {answer : Except Error Record} (hclient : client.registry = registry)
    (hrun : (client.save table.name record ⟨overwrite, true⟩).run.run session = (answer, later)) :
    Step registry table session.store (.saved record answer) later.store
  | update {client : Client} {record : Record} {changes : List FieldChange} {start : Update}
    {session later : Session} {answer : Except Error Record} (hclient : client.registry = registry)
    (hstart : Update.start table record = .ok start)
    (hrun : (client.sendUpdate table (start.after table changes)).run.run session =
      (answer, later)) :
    Step registry table session.store (.updated (start.after table changes) answer) later.store

inductive Runs (registry : Registry) (table : TableSchema) :
    Store → List Event → Store → Prop where
  | nil {store : Store} : Runs registry table store [] store
  | cons {store next last : Store} {event : Event} {events : List Event}
    (hstep : Step registry table store event next) (hruns : Runs registry table next events last) :
    Runs registry table store (event :: events) last

/-- The store keeps the table under the keys of its schema. -/
def Hosted (table : TableSchema) (store : Store) : Prop :=
  ∃ stored, store.Holds table stored

/-- A request lowers the revision under its key. It observed no revision, or the greatest one. -/
structure Lowers (table : TableSchema) (key : Item) (store : Store) (event : Event)
    (next : Store) : Prop where
  onKey : event.key? table = some key
  observed : event.observed = 0 ∨ event.observed = Int64.maxValue
  fell : ∃ before after, store.HoldsAt table key before ∧ next.HoldsAt table key after ∧
    after < before

/-- What a request does to the revision under a key. -/
structure Counts (table : TableSchema) (key : Item) (store : Store) (event : Event)
    (next : Store) : Prop where
  advanced : event.Applied table → event.key? table = some key → event.observed ≠ 0 →
    ∀ revision, store.HoldsAt table key revision → revision = event.observed ∧
      ∃ after, next.HoldsAt table key after ∧
        (revision ≠ Int64.maxValue → after.toInt = revision.toInt + 1)
  restarted : event.Applied table → event.key? table = some key → event.observed = 0 →
    next.HoldsAt table key 1
  kept : ∀ revision, store.HoldsAt table key revision → ∃ after, next.HoldsAt table key after ∧
    (after < revision → Lowers table key store event next)

/-- Some request of a run lowers the revision under a key. -/
def LowersWithin (registry : Registry) (table : TableSchema) (key : Item) (store : Store)
    (events : List Event) (last : Store) : Prop :=
  ∃ before event after found left, events = before ++ event :: after ∧
    Runs registry table store before found ∧ Step registry table found event left ∧
    Runs registry table left after last ∧ Lowers table key found event left

variable {registry : Registry} {store next last : Store} {event : Event} {events : List Event}

section Steps

variable (haccepted : table.Accepted) (hlocking : table.optimisticLocking = true)
  (htable : registry.requireTable table.name = .ok table)
include haccepted hlocking htable

/-- What a request makes of its table: a write with its observed revision, or nothing if it is not
applied. -/
theorem Step.moves (hstep : Step registry table store event next)
    (hholds : store.Holds table stored) :
    (¬ event.Applied table ∧ next.tables = store.tables) ∨
      ∃ key left, event.key? table = some key ∧ next.Holds table left ∧
        stored.Revises table key event.observed left := by
  cases hstep with
  | @save client record overwrite session later answer hclient hrun =>
    have hread : client.table table.name = .ok table := by
      rw [Client.table, hclient, htable]
    unfold Client.save at hrun
    rw [run_bind_of_ok ((run_except _ _).trans (congrArg (·, session) hread))] at hrun
    have hends := Client.putEnds_of_run (client.ready_of_table hholds.table?_eq) hrun
    rcases hends.revises haccepted hlocking hholds with ⟨hfailed, hsame⟩ | ⟨_, key, left, hkey, hmade⟩
    · exact .inl ⟨fun happlied => Bool.noConfusion (hfailed.symm.trans happlied), hsame⟩
    · refine .inr ⟨key, left, ?_, hmade⟩
      change (table.keyItem record).toOption = some key
      rw [hkey]
      rfl
  | @update client record changes start session later answer hclient hstart hrun =>
    have hready : client.Ready ⟨table.name, none, .write⟩ session :=
      client.ready_of_table hholds.table?_eq
    have hkey : table.IsKey (start.after table changes).key := by
      rw [Update.after_key]
      exact TableSchema.isKey_of_keyItem (Update.start_ok table hstart).1
    by_cases happlied : (Event.updated (start.after table changes) answer).Applied table
    · obtain ⟨hwrites, hok⟩ := happlied
      cases answer with
      | error => cases hok
      | ok answered =>
        obtain ⟨builder, expression, found, left, updated, hbuilt, hexpression, hfound, hupdate,
          htables⟩ := Client.applied_of_sendUpdate hready hwrites hrun
        obtain rfl := Option.some.inj (hholds.table?_eq.symm.trans hfound)
        have hrevises := Update.revises_update haccepted hlocking hbuilt hexpression
          hholds.keys_eq hkey hupdate
        exact .inr ⟨_, left, rfl, hholds.of_setTable htables hrevises.keys_eq, hrevises⟩
    · cases Client.updateEnds_of_run hready hrun with
      | unmade htables => exact .inl ⟨happlied, htables⟩
      | applied hbuilt hexpression hfound hupdate htables =>
        obtain rfl := Option.some.inj (hholds.table?_eq.symm.trans hfound)
        have hrevises := Update.revises_update haccepted hlocking hbuilt hexpression
          hholds.keys_eq hkey hupdate
        exact .inr ⟨_, _, rfl, hholds.of_setTable htables hrevises.keys_eq, hrevises⟩

theorem Step.hosted (hstep : Step registry table store event next) (hhosted : Hosted table store) :
    Hosted table next := by
  obtain ⟨stored, hholds⟩ := hhosted
  rcases hstep.moves haccepted hlocking htable hholds with ⟨_, hsame⟩ | ⟨_, left, _, hleft, _⟩
  · exact ⟨stored, hholds.of_tables_eq hsame⟩
  · exact ⟨left, hleft⟩

/-- Under a key a request leaves what was there, or the next of its observed revision. A revision
that was there is the observed one. -/
theorem Step.item?_cases (hstep : Step registry table store event next)
    (hhosted : Hosted table store) (hkey : table.IsKey key) :
    (¬ (event.Applied table ∧ event.key? table = some key) ∧
        next.item? table.name key = store.item? table.name key) ∨
      event.key? table = some key ∧ next.HoldsAt table key (event.observed + 1) ∧
        (event.observed ≠ 0 → ∀ revision, store.HoldsAt table key revision →
          revision = event.observed) := by
  obtain ⟨stored, hholds⟩ := hhosted
  rcases hstep.moves haccepted hlocking htable hholds with
    ⟨hunapplied, hsame⟩ | ⟨written, left, hwritten, hleft, hrevises⟩
  · exact .inl ⟨fun happlied => hunapplied happlied.1, Store.item?_of_tables_eq hsame _ _⟩
  · rw [Store.item?_eq hleft.table?_eq, Store.item?_eq hholds.table?_eq]
    rcases hrevises.find? hkey with ⟨hne, hsame⟩ | ⟨rfl, hat, item, hitem, hnext⟩
    · refine .inl ⟨fun happlied => hne ?_, hsame⟩
      exact Option.some.inj (happlied.2.symm.trans hwritten)
    · refine .inr ⟨hwritten, ⟨item, (Store.item?_eq hleft.table?_eq).trans hitem, hnext⟩, ?_⟩
      rintro hobserved revision ⟨held, hheld, hrevision⟩
      obtain ⟨found, hfound, htest⟩ := hat hobserved
      rw [Store.item?_eq hholds.table?_eq, hfound] at hheld
      cases hheld
      exact TableSchema.eq_of_revisionTest hrevision htest

theorem Step.counts (hstep : Step registry table store event next)
    (hhosted : Hosted table store) (hkey : table.IsKey key) :
    Counts table key store event next := by
  rcases hstep.item?_cases haccepted hlocking htable hhosted hkey with
    ⟨hunapplied, hsame⟩ | ⟨honKey, hnext, hfound⟩
  · refine ⟨fun happlied honKey => absurd ⟨happlied, honKey⟩ hunapplied,
      fun happlied honKey => absurd ⟨happlied, honKey⟩ hunapplied, fun revision hrevision => ?_⟩
    refine ⟨revision, ?_, fun hless => absurd hless Int64.lt_irrefl⟩
    obtain ⟨item, hitem, hread⟩ := hrevision
    exact ⟨item, hsame.trans hitem, hread⟩
  · refine ⟨fun _ _ hobserved revision hrevision => ?_, fun _ _ hobserved => ?_,
      fun revision hrevision => ⟨_, hnext, fun hless => ?_⟩⟩
    · have hsame := hfound hobserved revision hrevision
      refine ⟨hsame, _, hnext, fun hbounded => ?_⟩
      rw [← hsame]
      exact toInt_next_revision hbounded
    · rw [hobserved] at hnext
      exact hnext
    · refine ⟨honKey, ?_, revision, _, hrevision, hnext, hless⟩
      by_contra hneither
      obtain ⟨hobserved, hbounded⟩ := not_or.mp hneither
      have hadvance := toInt_next_revision hbounded
      rw [hfound hobserved revision hrevision, Int64.lt_iff_toInt_lt] at hless
      omega

/-! ### Whole runs -/

theorem Runs.hosted (hruns : Runs registry table store events last)
    (hhosted : Hosted table store) : Hosted table last := by
  induction hruns with
  | nil => exact hhosted
  | cons hstep _ ih => exact ih (hstep.hosted haccepted hlocking htable hhosted)

/-- The item under a key stays, and its revision falls only by a request that lowers it. -/
theorem Runs.holdsAt {revision : Int64} (hruns : Runs registry table store events last)
    (hhosted : Hosted table store) (hkey : table.IsKey key)
    (hrevision : store.HoldsAt table key revision) :
    ∃ final, last.HoldsAt table key final ∧
      (final < revision → LowersWithin registry table key store events last) := by
  induction hruns generalizing revision with
  | nil => exact ⟨revision, hrevision, fun hless => absurd hless Int64.lt_irrefl⟩
  | @cons store next last event events hstep hrest ih =>
    obtain ⟨after, hafter, hfirst⟩ :=
      (hstep.counts haccepted hlocking htable hhosted hkey).kept revision hrevision
    obtain ⟨final, hfinal, hlater⟩ := ih (hstep.hosted haccepted hlocking htable hhosted) hafter
    refine ⟨final, hfinal, fun hless => ?_⟩
    by_cases hfell : after < revision
    · exact ⟨[], event, events, store, next, rfl, .nil, hstep, hrest, hfirst hfell⟩
    · have hlow : final < after := by
        rw [Int64.lt_iff_toInt_lt] at hless hfell ⊢
        omega
      obtain ⟨before, lowering, rest, found, left, rfl, hbefore, hlowers⟩ := hlater hlow
      exact ⟨event :: before, lowering, rest, found, left, rfl, .cons hstep hbefore, hlowers⟩

end Steps

/-- Revisions count writes. However clients save and update, a write that observed a revision is
applied to an item only at it, and leaves the next one. Only a write of a record that was never
stored, which leaves the first revision, and a write at the greatest revision, which has no next
one, lower what is stored. -/
theorem revisions_counted {description : SchemaDescription}
    {registrations : List (String × Migration)} {tableName : String}
    (hbuild : Registry.build description registrations = .ok registry)
    (htable : registry.requireTable tableName = .ok table)
    (hlocking : table.optimisticLocking = true) (hhosted : Hosted table store)
    (hkey : table.IsKey key) (hruns : Runs registry table store events last) :
    (∀ event next, Step registry table last event next → Counts table key last event next) ∧
      ∀ revision, store.HoldsAt table key revision →
        ∃ final, last.HoldsAt table key final ∧
          (final < revision → LowersWithin registry table key store events last) := by
  have haccepted := Registry.accepted_of_build hbuild htable
  obtain rfl := Registry.name_of_requireTable htable
  constructor
  · intro event next hstep
    exact hstep.counts haccepted hlocking htable
      (hruns.hosted haccepted hlocking htable hhosted) hkey
  · intro revision hrevision
    exact hruns.holdsAt haccepted hlocking htable hhosted hkey hrevision

/-! ### Readings -/

def readingRegistry : Registry :=
  ⟨[Expression.readingTable], []⟩

def readingClient : Client :=
  ⟨readingRegistry, default⟩

def millKey : Item :=
  [("name", .string "mill")]

/-- The reading as a record that was never stored. -/
def freshReading : Record :=
  { readingRecord with revision := 0 }

/-- The session once a client has saved a reading in it. -/
def savedReading (session : Session) (record : Record) : Session :=
  ((readingClient.save "readings" record .standard).run.run session).2

def readingEvent (session : Session) (record : Record) : Event :=
  .saved record ((readingClient.save "readings" record .standard).run.run session).1

/-- The reading is saved twice, in a store that is empty before. -/
def emptyReadings : Session :=
  .start (.empty readingRegistry 1)

def twiceSaved : Session :=
  savedReading (savedReading emptyReadings freshReading) readingRecord

theorem Step.reading (session : Session) (record : Record) :
    Step readingRegistry Expression.readingTable session.store (readingEvent session record)
      (savedReading session record).store :=
  @Step.save readingRegistry Expression.readingTable readingClient record true session
    (savedReading session record) _ rfl (Prod.eta _).symm

theorem runs_twiceSaved :
    Runs readingRegistry Expression.readingTable emptyReadings.store
      [readingEvent emptyReadings freshReading,
        readingEvent (savedReading emptyReadings freshReading) readingRecord]
      twiceSaved.store :=
  .cons (.reading _ _) (.cons (.reading _ _) .nil)

/-- Whatever is sent after the reading was saved twice, its revision is counted. -/
theorem revisions_counted_readings :
    Registry.build ⟨[readingDescription]⟩ [] = .ok readingRegistry ∧
      Hosted Expression.readingTable emptyReadings.store ∧
      Expression.readingTable.IsKey millKey ∧
      (∃ events, Runs readingRegistry Expression.readingTable emptyReadings.store events
        twiceSaved.store) ∧
      ∀ event next, Step readingRegistry Expression.readingTable twiceSaved.store event next →
        Counts Expression.readingTable millKey twiceSaved.store event next := by
  have hbuild : Registry.build ⟨[readingDescription]⟩ [] = .ok readingRegistry := rfl
  have htable : readingRegistry.requireTable "readings" = .ok Expression.readingTable := rfl
  have hhosted : Hosted Expression.readingTable emptyReadings.store := ⟨_, rfl, rfl⟩
  have hkey : Expression.readingTable.IsKey millKey := rfl
  refine ⟨hbuild, hhosted, hkey, ⟨_, runs_twiceSaved⟩, ?_⟩
  exact (revisions_counted hbuild htable rfl hhosted hkey runs_twiceSaved).1

/-- A store with the reading at the greatest revision. -/
def lastReadings : Session :=
  .start { readingStore with tables := [("readings", ⟨⟨"name", none⟩, [],
    [[("_rev", .number "9223372036854775807"), ("_v", .number "1"), ("name", .string "mill")]], 1⟩)] }

def lastReading : Record :=
  { readingRecord with revision := Int64.maxValue }

/-- Saving the reading as one that was never stored takes it from the second revision to the first,
and saving it at the greatest revision takes it to the least. -/
theorem revision_falls_readings :
    (∃ events event next,
      Runs readingRegistry Expression.readingTable emptyReadings.store events twiceSaved.store ∧
      Step readingRegistry Expression.readingTable twiceSaved.store event next ∧
      event.Applied Expression.readingTable ∧
      event.key? Expression.readingTable = some millKey ∧
      twiceSaved.store.HoldsAt Expression.readingTable millKey 2 ∧
      next.HoldsAt Expression.readingTable millKey 1) ∧
    ∃ event next, Step readingRegistry Expression.readingTable lastReadings.store event next ∧
      event.Applied Expression.readingTable ∧
      event.key? Expression.readingTable = some millKey ∧
      lastReadings.store.HoldsAt Expression.readingTable millKey Int64.maxValue ∧
      next.HoldsAt Expression.readingTable millKey Int64.minValue := by
  refine ⟨⟨_, _, _, runs_twiceSaved, .reading twiceSaved freshReading, ?_, rfl, ?_, ?_⟩,
    _, _, .reading lastReadings lastReading, ?_, rfl, ?_, ?_⟩
  · exact (by decide +kernel :
      ((readingClient.save "readings" freshReading .standard).run.run twiceSaved).1.isOk = true)
  · exact .of_get? (by decide +kernel)
  · exact .of_get? (by decide +kernel)
  · exact (by decide +kernel :
      ((readingClient.save "readings" lastReading .standard).run.run lastReadings).1.isOk = true)
  · exact .of_get? (by decide +kernel)
  · exact .of_get? (by decide +kernel)

end Writing

end RecordStore
