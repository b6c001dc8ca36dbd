import RecordStore.Proofs.Migration.Decode
import RecordStore.Proofs.Migration.WriteBack
import RecordStore.Proofs.Schema.Registry

/-!
# Races of migrations

Clients that load a stale item at the same time all migrate it and try to store the result, while
others save and update records. However their steps interleave, an item that reached the version of
its table stays there: at most one write-back takes the place of a stale item, none replaces what a
save or an update left, and a load whose write-back comes too late answers its own record.
-/

namespace RecordStore

/-! ### Loads on their way -/

/-- A load between its fetch and its write-back. The client migrated the fetched item and is to
store the record again. -/
structure PendingLoad (registry : Registry) (table : TableSchema) where
  client : Client
  item : Item
  loaded : Loaded
  shares : client.registry = registry
  decoded : client.decode table item = .ok loaded
  isMigrated : loaded.isMigrated = true
  allowed : client.config.writesBack = true

variable {registry : Registry} {table : TableSchema}

namespace PendingLoad

def record (load : PendingLoad registry table) : Record :=
  load.loaded.record

/-- The put of the migrated record. -/
def put (load : PendingLoad registry table) : SessionCall Record :=
  load.client.put table load.record .standard true

/-- What the load does with the item that it fetched. -/
def finish (load : PendingLoad registry table) : SessionCall Record :=
  load.client.load table true load.item

theorem finish_eq (load : PendingLoad registry table) :
    load.finish = load.client.writeBack table load.record := by
  have hwrites : (load.loaded.isMigrated && true && load.client.config.writesBack) = true := by
    rw [load.isMigrated, load.allowed]
    rfl
  unfold finish Client.load
  rw [load.decoded]
  change (if (load.loaded.isMigrated && true && load.client.config.writesBack) = true then
    load.client.writeBack table load.loaded.record else pure load.loaded.record) = _
  rw [if_pos hwrites]
  rfl

/-- What a load answers when its put ends in some way: its own record on a conflict. -/
def answerTo (load : PendingLoad registry table) : Except Error Record → Except Error Record
  | .ok record => .ok record
  | .error error => if error.isWriteConflict then .ok load.record else .error error

theorem run_finish {load : PendingLoad registry table} {session later : Session}
    {put : Except Error Record} (hput : load.put.run.run session = (put, later)) :
    load.finish.run.run session = (load.answerTo put, later) := by
  rw [finish_eq, Client.writeBack]
  cases put with
  | ok record => exact run_tryCatch_of_ok hput
  | error error =>
    refine (run_tryCatch_of_error hput).trans ?_
    have hanswer : load.answerTo (.error error) =
        if error.isWriteConflict then .ok load.record else .error error := rfl
    rw [hanswer]
    by_cases hconflict : error.isWriteConflict = true
    · rw [if_pos hconflict, if_pos hconflict]
      rfl
    · rw [if_neg hconflict, if_neg hconflict]
      rfl

end PendingLoad

/-! ### Runs -/

/-- A store that clients share, with the loads that are on their way. -/
structure Race (registry : Registry) (table : TableSchema) where
  store : Store
  pending : List (PendingLoad registry table)

namespace Race

/-- What a client did, and what it was answered. -/
inductive Event (registry : Registry) (table : TableSchema) where
  | fetched (load : PendingLoad registry table)
  /-- A load ended with the outcome of its put. -/
  | finished (load : PendingLoad registry table) (put answer : Except Error Record)
  | saved (record : Record) (answer : Except Error Record)
  | updated (update : Update) (answer : Except Error Record)

/-- A step of some client with the registry. Each has a session of its own on the shared store. -/
inductive Step : Race registry table → Event registry table → Race registry table → Prop where
  | fetch {load : PendingLoad registry table} {store later : Store}
    {pending : List (PendingLoad registry table)} (hfetched : load.item ∈ store.items table.name)
    (hread : later.tables = store.tables) :
    Step ⟨store, pending⟩ (.fetched load) ⟨later, load :: pending⟩
  | finish {load : PendingLoad registry table} {session later : Session}
    {before after : List (PendingLoad registry table)} {put answer : Except Error Record}
    (hput : (load.put.run.run session).1 = put)
    (hrun : load.finish.run.run session = (answer, later)) :
    Step ⟨session.store, before ++ load :: after⟩ (.finished load put answer)
      ⟨later.store, before ++ after⟩
  | save {client : Client} {record : Record} {options : SaveOptions} {session later : Session}
    {pending : List (PendingLoad registry table)} {answer : Except Error Record}
    (hclient : client.registry = registry)
    (hrun : (client.save table.name record options).run.run session = (answer, later)) :
    Step ⟨session.store, pending⟩ (.saved record answer) ⟨later.store, pending⟩
  | update {client : Client} {record : Record} {changes : List FieldChange} {start : Update}
    {session later : Session} {pending : List (PendingLoad registry table)}
    {answer : Except Error Record} (hclient : client.registry = registry)
    (hstart : Update.start table record = .ok start)
    (hrun : (client.sendUpdate table (start.after table changes)).run.run session =
      (answer, later)) :
    Step ⟨session.store, pending⟩ (.updated (start.after table changes) answer)
      ⟨later.store, pending⟩

inductive Runs : Race registry table → List (Event registry table) → Race registry table →
    Prop where
  | nil {race : Race registry table} : Runs race [] race
  | cons {race next last : Race registry table} {event : Event registry table}
    {events : List (Event registry table)} (hstep : Step race event next)
    (hruns : Runs next events last) : Runs race (event :: events) last

namespace Event

/-- Whether a write-back was applied under a key. -/
def storesBack (key : Item) : Event registry table → Bool
  | finished load put _ => put.isOk && (table.keyItem load.record).toOption = some key
  | _ => false

/-- Whether a write-back was applied for an item that was fetched under a key. -/
def replaces (key : Item) : Event registry table → Bool
  | finished load put _ =>
    put.isOk && (KeyNames.ofSchema table.keys).keyOf? load.item = some key
  | _ => false

theorem version_pos_of_storesBack {key : Item} {event : Event registry table}
    (hback : event.storesBack key = true) : 0 < table.version := by
  cases event with
  | finished load put answer => exact load.client.version_pos_of_decode load.decoded load.isMigrated
  | fetched => cases hback
  | saved => cases hback
  | updated => cases hback

end Event

/-! ### Steps -/

variable {race next last : Race registry table} {event : Event registry table}
  {events : List (Event registry table)} {stored : StoredTable} {key : Item}

/-- What a step of a client makes of the table: nothing, or a write at the version of its schema. A
write-back that is applied writes in the place of an item below the version. -/
structure Moves (stored : StoredTable) (event : Event registry table) (left : StoredTable) :
    Prop where
  settles : left = stored ∨ ∃ key, stored.Settles table key left
  stale : ∀ key, event.storesBack key = true →
    stored.Settles table key left ∧ table.staleTest ((stored.find? key).getD []) = true

theorem Step.moves (hstep : Step race event next) (haccepted : table.Accepted)
    (henabled : table.migrationsEnabled = true)
    (htable : registry.requireTable table.name = .ok table) (hholds : race.store.Holds table stored) :
    ∃ left, next.store.Holds table left ∧ Moves stored event left := by
  cases hstep with
  | fetch hfetched hread =>
    exact ⟨stored, hholds.of_tables_eq hread, .inl rfl, fun key hback => Bool.noConfusion hback⟩
  | @finish load session later before after put answer hput hrun =>
    have hputRun : load.put.run.run session = (put, (load.put.run.run session).2) :=
      Prod.ext hput rfl
    have hlater : (load.put.run.run session).2 = later :=
      congrArg Prod.snd ((PendingLoad.run_finish hputRun).symm.trans hrun)
    rw [hlater] at hputRun
    have hends := Client.putEnds_of_run (load.client.ready_of_table hholds.table?_eq) hputRun
    obtain ⟨left, hleft, hmoved⟩ := hends.settles haccepted hholds
    refine ⟨left, hleft, ?_, ?_⟩
    · exact hmoved.imp And.right fun ⟨key, _, hsettles⟩ => ⟨key, hsettles⟩
    · intro key hback
      obtain ⟨hok, hkey⟩ := Bool.and_eq_true_iff.mp hback
      obtain ⟨stale, hstaleKey, hstale⟩ := (hends.stale haccepted hholds).1 hok
      rcases hmoved with ⟨hfailed, _⟩ | ⟨written, hwritten, hsettles⟩
      · rw [hok] at hfailed
        cases hfailed
      · have hsame : some written = some key := by
          rw [← of_decide_eq_true hkey, hwritten]
          rfl
        cases hsame
        cases hwritten.symm.trans hstaleKey
        exact ⟨hsettles, hstale⟩
  | @save client record options session later pending answer hclient hrun =>
    have hread : client.table table.name = .ok table := by
      rw [Client.table, hclient, htable]
    unfold Client.save at hrun
    rw [run_bind_of_ok ((run_except _ _).trans (congrArg (·, session) hread))] at hrun
    have hends := Client.putEnds_of_run (client.ready_of_table hholds.table?_eq) hrun
    obtain ⟨left, hleft, hmoved⟩ := hends.settles haccepted hholds
    refine ⟨left, hleft, ?_, fun key hback => Bool.noConfusion hback⟩
    exact hmoved.imp And.right fun ⟨key, _, hsettles⟩ => ⟨key, hsettles⟩
  | @update client record changes start session later pending answer hclient hstart hrun =>
    have hends := Client.updateEnds_of_run (client.ready_of_table hholds.table?_eq) hrun
    have hkey : table.IsKey (start.after table changes).key := by
      rw [Update.after_key]
      exact TableSchema.isKey_of_keyItem (Update.start_ok table hstart).1
    obtain ⟨left, hleft, hmoved⟩ := hends.settles haccepted henabled hholds hkey
    refine ⟨left, hleft, ?_, fun key hback => Bool.noConfusion hback⟩
    exact hmoved.imp id fun hsettles => ⟨_, hsettles⟩

/-- The store keeps the table under the keys of its schema. -/
def Hosted (race : Race registry table) : Prop :=
  ∃ stored, race.store.Holds table stored

/-- The store holds an item under a key that is not below the version of the table. -/
def IsSettled (race : Race registry table) (key : Item) : Prop :=
  ∃ item, race.store.item? table.name key = some item ∧ table.staleTest item = false

/-- The store holds an item under a key at the version of the table. -/
def IsCurrent (race : Race registry table) (key : Item) : Prop :=
  ∃ item, race.store.item? table.name key = some item ∧ table.StoredAt item table.version

theorem IsCurrent.isSettled (hcurrent : race.IsCurrent key) (hversion : 0 < table.version) :
    race.IsSettled key := by
  obtain ⟨item, hitem, hstored⟩ := hcurrent
  exact ⟨item, hitem, TableSchema.staleTest_of_storedAt hstored hversion⟩

section Steps

variable (haccepted : table.Accepted) (henabled : table.migrationsEnabled = true)
  (htable : registry.requireTable table.name = .ok table)
include haccepted henabled htable

/-- What a step leaves under a key is what it found there, or an item that follows that. -/
theorem Step.item?_cases (hstep : Step race event next) (hhosted : race.Hosted)
    (hkey : table.IsKey key) :
    next.store.item? table.name key = race.store.item? table.name key ∨
      ∃ item, next.store.item? table.name key = some item ∧
        table.Succeeds (race.store.item? table.name key) item := by
  obtain ⟨stored, hholds⟩ := hhosted
  obtain ⟨left, hleft, hmoves⟩ := hstep.moves haccepted henabled htable hholds
  rw [Store.item?_eq hleft.table?_eq, Store.item?_eq hholds.table?_eq]
  rcases hmoves.settles with rfl | ⟨written, hsettles⟩
  · exact .inl rfl
  · exact (hsettles.find? hkey).imp And.right And.right

theorem Step.hosted (hstep : Step race event next) (hhosted : race.Hosted) : next.Hosted := by
  obtain ⟨stored, hholds⟩ := hhosted
  obtain ⟨left, hleft, _⟩ := hstep.moves haccepted henabled htable hholds
  exact ⟨left, hleft⟩

theorem Step.isSettled (hstep : Step race event next) (hhosted : race.Hosted)
    (hkey : table.IsKey key) (hsettled : race.IsSettled key) : next.IsSettled key := by
  rcases hstep.item?_cases haccepted henabled htable hhosted hkey with hsame | ⟨item, hitem, hfollows⟩
  · unfold IsSettled
    rw [hsame]
    exact hsettled
  · exact ⟨item, hitem, hfollows.staleTest_eq⟩

theorem Step.isCurrent (hstep : Step race event next) (hhosted : race.Hosted)
    (hkey : table.IsKey key) (hcurrent : race.IsCurrent key) : next.IsCurrent key := by
  rcases hstep.item?_cases haccepted henabled htable hhosted hkey with hsame | ⟨item, hitem, hfollows⟩
  · unfold IsCurrent
    rw [hsame]
    exact hcurrent
  · obtain ⟨before, hbefore, hstored⟩ := hcurrent
    rw [hbefore] at hfollows
    exact ⟨item, hitem, hfollows.storedAt hstored⟩

/-- A step that changes what is under a key settles it. -/
theorem Step.isSettled_of_ne (hstep : Step race event next) (hhosted : race.Hosted)
    (hkey : table.IsKey key)
    (hne : next.store.item? table.name key ≠ race.store.item? table.name key) :
    next.IsSettled key := by
  rcases hstep.item?_cases haccepted henabled htable hhosted hkey with hsame | ⟨item, hitem, hfollows⟩
  · exact absurd hsame hne
  · exact ⟨item, hitem, hfollows.staleTest_eq⟩

/-- A write-back that is applied settles its key, which was not settled. -/
theorem Step.of_storesBack (hstep : Step race event next) (hhosted : race.Hosted)
    (hback : event.storesBack key = true) :
    table.IsKey key ∧ ¬ race.IsSettled key ∧ next.IsSettled key := by
  obtain ⟨stored, hholds⟩ := hhosted
  obtain ⟨left, hleft, hmoves⟩ := hstep.moves haccepted henabled htable hholds
  obtain ⟨hsettles, hstale⟩ := hmoves.stale key hback
  have hkey : table.IsKey key := by
    obtain ⟨hkey, _, _⟩ := hsettles
    exact hkey
  refine ⟨hkey, ?_, ?_⟩
  · rintro ⟨item, hitem, hfresh⟩
    rw [Store.item?_eq hholds.table?_eq] at hitem
    rw [hitem] at hstale
    cases hstale.symm.trans hfresh
  · rcases hsettles.find? hkey with ⟨hother, _⟩ | ⟨_, item, hitem, hfollows⟩
    · exact absurd rfl hother
    · exact ⟨item, (Store.item?_eq hleft.table?_eq).trans hitem, hfollows.staleTest_eq⟩

/-! ### Whole runs -/

theorem Runs.hosted (hruns : Runs race events last) (hhosted : race.Hosted) : last.Hosted := by
  induction hruns with
  | nil => exact hhosted
  | cons hstep _ ih => exact ih (hstep.hosted haccepted henabled htable hhosted)

/-- No write-back replaces an item that is not below the version of its table. -/
theorem Runs.storesBack_eq_false (hruns : Runs race events last) (hhosted : race.Hosted)
    (hkey : table.IsKey key) (hsettled : race.IsSettled key) :
    ∀ event ∈ events, event.storesBack key = false := by
  induction hruns with
  | nil => exact fun event hmem => absurd hmem List.not_mem_nil
  | @cons race next last first rest hstep _ ih =>
    intro event hmem
    rcases List.mem_cons.mp hmem with rfl | hmem
    · rw [← Bool.not_eq_true]
      intro hback
      exact (hstep.of_storesBack haccepted henabled htable hhosted hback).2.1 hsettled
    · exact ih (hstep.hosted haccepted henabled htable hhosted)
        (hstep.isSettled haccepted henabled htable hhosted hkey hsettled) event hmem

theorem Runs.isCurrent (hruns : Runs race events last) (hhosted : race.Hosted)
    (hkey : table.IsKey key) (hcurrent : race.IsCurrent key) :
    last.IsCurrent key ∧ ∀ event ∈ events, event.storesBack key = false := by
  constructor
  · induction hruns with
    | nil => exact hcurrent
    | cons hstep _ ih =>
      exact ih (hstep.hosted haccepted henabled htable hhosted)
        (hstep.isCurrent haccepted henabled htable hhosted hkey hcurrent)
  · intro event hmem
    rw [← Bool.not_eq_true]
    intro hback
    -- A table at version zero migrates nothing.
    have hversion : 0 < table.version := event.version_pos_of_storesBack hback
    have hfalse := hruns.storesBack_eq_false haccepted henabled htable hhosted hkey
      (hcurrent.isSettled hversion) event hmem
    cases hback.symm.trans hfalse

/-- Of all write-backs under a key at most one is applied. -/
theorem Runs.length_storesBack_le (hruns : Runs race events last) (hhosted : race.Hosted)
    (key : Item) : (events.filter fun event => event.storesBack key).length ≤ 1 := by
  induction hruns with
  | nil => exact Nat.zero_le 1
  | @cons race next last first rest hstep hrest ih =>
    have hnext := hstep.hosted haccepted henabled htable hhosted
    cases hback : first.storesBack key with
    | false =>
      rw [List.filter_cons_of_neg (by simp [hback])]
      exact ih hnext
    | true =>
      obtain ⟨hkey, _, hsettled⟩ := hstep.of_storesBack haccepted henabled htable hhosted hback
      have hnone : rest.filter (fun event => event.storesBack key) = [] := by
        rw [List.filter_eq_nil_iff]
        intro event hmem
        simp [hrest.storesBack_eq_false haccepted henabled htable hnext hkey hsettled event hmem]
      rw [List.filter_cons_of_pos hback, hnone]
      exact Nat.le_refl 1

omit henabled htable in
/-- How a load ends: as its put, or with its own record once the put was sent and not applied. -/
theorem Step.answered {load : PendingLoad registry table} {put answer : Except Error Record}
    (hstep : Step race (.finished load put answer) next) (hhosted : race.Hosted) :
    (put.isOk = true → answer = put ∧ ∃ key, table.keyItem load.record = .ok key) ∧
      (put.isOk = false → (PreparedPut.prepare table load.record .standard true).isOk = true →
        answer = .ok load.record) := by
  obtain ⟨stored, hholds⟩ := hhosted
  cases hstep with
  | @finish _ session later before after _ _ hput hrun =>
    have hputRun : load.put.run.run session = (put, (load.put.run.run session).2) :=
      Prod.ext hput rfl
    have hends := Client.putEnds_of_run (load.client.ready_of_table hholds.table?_eq) hputRun
    have hanswer : load.answerTo put = answer :=
      congrArg Prod.fst ((PendingLoad.run_finish hputRun).symm.trans hrun)
    obtain ⟨happlied, hlost⟩ := hends.stale haccepted hholds
    rw [← hanswer]
    constructor
    · intro hok
      obtain ⟨key, hkey, _⟩ := happlied hok
      cases put with
      | ok record => exact ⟨rfl, key, hkey⟩
      | error => cases hok
    · intro hfailed hprepared
      obtain ⟨context, rfl⟩ := hlost hfailed hprepared
      rfl

omit henabled htable in
/-- The key of a migrated record depends only on the key of the item that was fetched. -/
theorem Event.storesBack_of_replaces {other : Event registry table} {recordKey : Item}
    (hkeeps : ∀ step ∈ registry.migrationsOf table.name, step.KeepsKey (.ofSchema table.keys))
    (hreplaces : event.replaces key = true) (hback : event.storesBack recordKey = true)
    (hother : other.replaces key = true) : other.storesBack recordKey = true := by
  cases event with
  | finished first firstPut _ =>
    cases other with
    | finished second secondPut _ =>
      obtain ⟨_, hfirst⟩ := Bool.and_eq_true_iff.mp hreplaces
      obtain ⟨_, hrecord⟩ := Bool.and_eq_true_iff.mp hback
      obtain ⟨hok, hsecond⟩ := Bool.and_eq_true_iff.mp hother
      have hkey : table.keyItem first.record = .ok recordKey := by
        cases hread : table.keyItem first.record with
        | error error =>
          rw [hread] at hrecord
          cases hrecord
        | ok held =>
          rw [hread] at hrecord
          rw [Option.some.inj (of_decide_eq_true hrecord)]
      have hsame := Client.keyItem_decode haccepted (second.shares.trans first.shares.symm)
        (by rw [first.shares]; exact hkeeps) (of_decide_eq_true hfirst) (of_decide_eq_true hsecond)
        first.decoded second.decoded hkey
      change (secondPut.isOk && decide ((table.keyItem second.loaded.record).toOption =
        some recordKey)) = true
      rw [hok, hsame]
      simp [Except.toOption]
    | fetched => cases hother
    | saved => cases hother
    | updated => cases hother
  | fetched => cases hreplaces
  | saved => cases hreplaces
  | updated => cases hreplaces

omit henabled htable in
theorem Step.exists_storesBack (hstep : Step race event next) (hhosted : race.Hosted)
    (hreplaces : event.replaces key = true) : ∃ recordKey, event.storesBack recordKey = true := by
  cases event with
  | finished load put answer =>
    obtain ⟨hok, _⟩ := Bool.and_eq_true_iff.mp hreplaces
    obtain ⟨_, recordKey, hkey⟩ := (hstep.answered haccepted hhosted).1 hok
    refine ⟨recordKey, ?_⟩
    change (put.isOk && decide ((table.keyItem load.record).toOption = some recordKey)) = true
    rw [hok, hkey]
    simp [Except.toOption]
  | fetched => cases hreplaces
  | saved => cases hreplaces
  | updated => cases hreplaces

/-- Of all write-backs of what was fetched under a key at most one is applied. -/
theorem Runs.length_replaces_le
    (hkeeps : ∀ step ∈ registry.migrationsOf table.name, step.KeepsKey (.ofSchema table.keys))
    (hruns : Runs race events last) (hhosted : race.Hosted) (key : Item) :
    (events.filter fun event => event.replaces key).length ≤ 1 := by
  induction hruns with
  | nil => exact Nat.zero_le 1
  | @cons race next last first rest hstep hrest ih =>
    have hnext := hstep.hosted haccepted henabled htable hhosted
    cases hreplaces : first.replaces key with
    | false =>
      rw [List.filter_cons_of_neg (by simp [hreplaces])]
      exact ih hnext
    | true =>
      obtain ⟨recordKey, hback⟩ := hstep.exists_storesBack haccepted hhosted hreplaces
      obtain ⟨hkey, _, hsettled⟩ := hstep.of_storesBack haccepted henabled htable hhosted hback
      have hnone : rest.filter (fun event => event.replaces key) = [] := by
        rw [List.filter_eq_nil_iff]
        intro event hmem hother
        have hlater := Event.storesBack_of_replaces haccepted hkeeps hreplaces hback hother
        have hfalse := hrest.storesBack_eq_false haccepted henabled htable hnext hkey hsettled
          event hmem
        cases hlater.symm.trans hfalse
      rw [List.filter_cons_of_pos hreplaces, hnone]
      exact Nat.le_refl 1

theorem Runs.exists_step (hruns : Runs race events last) (hhosted : race.Hosted)
    (hmem : event ∈ events) :
    ∃ before after : Race registry table, Step before event after ∧ before.Hosted := by
  induction hruns with
  | nil => cases hmem
  | @cons race next last first rest hstep _ ih =>
    rcases List.mem_cons.mp hmem with rfl | hmem
    · exact ⟨race, next, hstep, hhosted⟩
    · exact ih (hstep.hosted haccepted henabled htable hhosted) hmem

end Steps

/-- What holds of every run that begins with a race. -/
structure SettlesOnce (start : Race registry table) : Prop where
  /-- An item at the version of its table stays there, and no write-back under its key is applied. -/
  current {earlier later : List (Event registry table)} {middle last : Race registry table}
    {key : Item} (hearlier : Runs start earlier middle) (hlater : Runs middle later last)
    (hkey : table.IsKey key) (hcurrent : middle.IsCurrent key) :
    last.IsCurrent key ∧ ∀ event ∈ later, event.storesBack key = false
  /-- Once a save, an update or a write-back changed what is under a key, no write-back under it is
  applied. -/
  changed {earlier later : List (Event registry table)} {middle next last : Race registry table}
    {event : Event registry table} {key : Item} (hearlier : Runs start earlier middle)
    (hstep : Step middle event next) (hlater : Runs next later last) (hkey : table.IsKey key)
    (hchanged : next.store.item? table.name key ≠ middle.store.item? table.name key) :
    ∀ other ∈ later, other.storesBack key = false
  /-- At most one write-back is applied under a key, and at most one for the items fetched under it. -/
  once {events : List (Event registry table)} {last : Race registry table}
    (hruns : Runs start events last) (key : Item) :
    (events.filter fun event => event.storesBack key).length ≤ 1 ∧
      (events.filter fun event => event.replaces key).length ≤ 1
  /-- A load whose record can be stored answers: the stored record, or its own when its write-back is
  not applied. -/
  answered {events : List (Event registry table)} {last : Race registry table}
    {load : PendingLoad registry table} {put answer : Except Error Record}
    (hruns : Runs start events last) (hmem : .finished load put answer ∈ events) :
    (put.isOk = true → answer = put) ∧
      (put.isOk = false → (PreparedPut.prepare table load.record .standard true).isOk = true →
        answer = .ok load.record)

end Race

/-- Races of migrations settle once, whatever clients with one registry do on the way. -/
theorem race_settles {description : SchemaDescription} {registrations : List (String × Migration)}
    {tableName : String} {start : Race registry table}
    (hbuild : Registry.build description registrations = .ok registry)
    (htable : registry.requireTable tableName = .ok table)
    (henabled : table.migrationsEnabled = true)
    (hkeeps : ∀ step ∈ registry.migrationsOf tableName, step.KeepsKey (.ofSchema table.keys))
    (hhosted : start.Hosted) : start.SettlesOnce := by
  have haccepted := Registry.accepted_of_build hbuild htable
  obtain rfl := Registry.name_of_requireTable htable
  constructor
  case current =>
    intro earlier later middle last key hearlier hlater hkey hcurrent
    have hmiddle := hearlier.hosted haccepted henabled htable hhosted
    exact hlater.isCurrent haccepted henabled htable hmiddle hkey hcurrent
  case changed =>
    intro earlier later middle next last event key hearlier hstep hlater hkey hchanged
    have hmiddle := hearlier.hosted haccepted henabled htable hhosted
    exact hlater.storesBack_eq_false haccepted henabled htable
      (hstep.hosted haccepted henabled htable hmiddle) hkey
      (hstep.isSettled_of_ne haccepted henabled htable hmiddle hkey hchanged)
  case once =>
    intro events last hruns key
    exact ⟨hruns.length_storesBack_le haccepted henabled htable hhosted key,
      hruns.length_replaces_le haccepted henabled htable hkeeps hhosted key⟩
  case answered =>
    intro events last load put answer hruns hmem
    obtain ⟨before, after, hstep, hbefore⟩ :=
      hruns.exists_step haccepted henabled htable hhosted hmem
    obtain ⟨happlied, hlost⟩ := hstep.answered haccepted hbefore
    exact ⟨fun hok => (happlied hok).1, hlost⟩

/-- The registry of the journal. -/
def journalRegistry : Registry :=
  match Registry.build journalDescription journalSteps with
  | .ok registry => registry
  | .error _ => ⟨[], []⟩

def journalStore : Store where
  tables := [("journal", ⟨⟨"id", none⟩, [], [journalEntry], 1⟩)]
  calls := []
  unprocessedRounds := 0

/-- A client that fetched the stale entry of the journal. -/
def journalLoad : PendingLoad journalRegistry journalTable where
  client := ⟨journalRegistry, default, true, default⟩
  item := journalEntry
  loaded := ⟨⟨"Entry", [("id", .string "e")], 0⟩, true⟩
  shares := rfl
  decoded := by
    have hupgrade : (upgrade journalTable ((Client.mk journalRegistry
        ⟨default, true, default⟩).registry.migrationsOf journalTable.name)).run.run journalEntry =
        (.ok (.migrated 1), [("_v", .number "3"), ("id", .string "e"),
          ("log", .list [.string "first", .string "second", .string "tied", .string "third",
            .string "first again", .string "third again"])]) := by
      cbv
    unfold Client.decode
    rw [hupgrade]
    rfl
  isMigrated := rfl
  allowed := rfl

theorem Migration.keepsKey_journal {step : Migration}
    (hstep : step ∈ journalRegistry.migrationsOf "journal") : step.KeepsKey ⟨"id", none⟩ := by
  have hbuild : Registry.build journalDescription journalSteps = .ok journalRegistry := rfl
  rw [Registry.migrationsOf_of_build hbuild, List.mem_mergeSort] at hstep
  change step ∈ journalSteps.map Prod.snd at hstep
  simp only [journalSteps, List.map_cons, List.map_nil, List.mem_cons, List.not_mem_nil,
    or_false] at hstep
  rcases hstep with rfl | rfl | rfl | rfl | rfl <;>
    exact Migration.keepsKey_ofEdits _ _ (by decide)

/-- Two clients fetched the same stale entry of the journal. -/
theorem race_settles_journal :
    journalLoad.item ∈ journalStore.items "journal" ∧
      Race.SettlesOnce ⟨journalStore, [journalLoad, journalLoad]⟩ := by
  refine ⟨List.mem_singleton_self _, ?_⟩
  have hbuild : Registry.build journalDescription journalSteps = .ok journalRegistry := rfl
  have htable : journalRegistry.requireTable "journal" = .ok journalTable := rfl
  apply race_settles hbuild htable rfl
  · exact fun step hstep => Migration.keepsKey_journal hstep
  · exact ⟨_, rfl, rfl⟩

end RecordStore
