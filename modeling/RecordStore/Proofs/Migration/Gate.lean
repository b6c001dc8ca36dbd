import RecordStore.Client.Save
import RecordStore.Migration.Edit
import RecordStore.Proofs.Item
import RecordStore.Proofs.Migration.Schedule
import RecordStore.Proofs.Numeral

/-!
# What loading makes of stored versions

An item below the version of its table goes through the steps that are due, twice and in order, and
ends at the version of the table. An item at that version stays as it is, and one above it is
refused. Whatever fails on the way fails the load, which has then called no store.
-/

namespace RecordStore

/-! ### Stored versions -/

theorem Decimal.readUInt32?_toString (value : UInt32) :
    readUInt32? (toString value.toNat).toList = some value := by
  have hvalue := digitsValue?_toString value.toNat
  have hdigits : ∀ character ∈ (toString value.toNat).toList, character.isDigit = true :=
    fun _ => isDigit_of_mem_toString
  generalize (toString value.toNat).toList = characters at hvalue hdigits
  unfold readUInt32?
  split
  · exact absurd rfl (ne_of_isDigit (hdigits '+' (by simp)) (by decide : '+'.isDigit = false))
  · simp [hvalue, UInt32.toNat_lt_size]

/-- Nothing of a written version is blank. -/
theorem Decimal.readUInt32?_trim_toString (version : UInt32) :
    readUInt32? (Text.trim (toString version.toNat).toList) = some version := by
  have htrim := Text.trim_toString_int version.toNat
  rw [toString_int_ofNat] at htrim
  have hlist := congrArg String.toList htrim
  rw [String.toList_ofList] at hlist
  rw [hlist, readUInt32?_toString]

/-- The version that an item is stored at, zero when it has none. -/
inductive TableSchema.StoredAt (table : TableSchema) (item : Item) : UInt32 → Prop where
  | absent (hget : Item.get? item table.versionAttribute = none) : StoredAt table item 0
  | null {flag : Bool} (hget : Item.get? item table.versionAttribute = some (.null flag)) :
    StoredAt table item 0
  | number {text : String} {version : UInt32}
    (hget : Item.get? item table.versionAttribute = some (.number text))
    (hread : Decimal.readUInt32? (Text.trim text.toList) = some version) :
    StoredAt table item version

namespace TableSchema

variable {table : TableSchema} {item : Item} {version : UInt32}

theorem StoredAt.storedVersion (hstored : table.StoredAt item version) :
    ∃ stored, Codec.storedVersion table item = .ok stored ∧ stored.getD 0 = version := by
  unfold Codec.storedVersion
  cases hstored with
  | absent hget => exact ⟨none, by rw [hget], rfl⟩
  | null hget => exact ⟨none, by rw [hget], rfl⟩
  | number hget hread => exact ⟨some version, by simp only [hget, hread], rfl⟩

theorem storedAt_of_storedVersion {stored : Option UInt32}
    (hstored : Codec.storedVersion table item = .ok stored) : table.StoredAt item (stored.getD 0) := by
  unfold Codec.storedVersion at hstored
  split at hstored
  · rename_i hget
    cases hstored
    exact .absent hget
  · rename_i flag hget
    cases hstored
    exact .null hget
  · rename_i text hget
    split at hstored
    · rename_i version hread
      cases hstored
      exact .number hget hread
    · cases hstored
  · cases hstored

theorem StoredAt.congr {other : Item} (hstored : table.StoredAt item version)
    (hsame : Item.get? item table.versionAttribute = Item.get? other table.versionAttribute) :
    table.StoredAt other version := by
  cases hstored with
  | absent hget => exact .absent (hsame ▸ hget)
  | null hget => exact .null (hsame ▸ hget)
  | number hget hread => exact .number (hsame ▸ hget) hread

theorem storedAt_of_get?
    (hget : Item.get? item table.versionAttribute = some (Codec.versionAttribute version)) :
    table.StoredAt item version :=
  .number hget (Decimal.readUInt32?_trim_toString version)

end TableSchema

/-! ### Editors in a row -/

/-- What becomes of an item that editors work on one after another: each begins with what the one
before it left, and the first that fails is the last that runs. -/
inductive Ran : List (ItemEditor Unit) → Item → Except Error Unit → Item → Prop where
  | done {item : Item} : Ran [] item (.ok ()) item
  | next {editor : ItemEditor Unit} {rest : List (ItemEditor Unit)} {item between last : Item}
    {outcome : Except Error Unit} (hedit : editor.run.run item = (.ok (), between))
    (hrest : Ran rest between outcome last) : Ran (editor :: rest) item outcome last
  | failed {editor : ItemEditor Unit} {rest : List (ItemEditor Unit)} {item left : Item}
    {error : Error} (hedit : editor.run.run item = (.error error, left)) :
    Ran (editor :: rest) item (.error error) left

namespace Ran

variable {first second : List (ItemEditor Unit)} {item last : Item} {outcome : Except Error Unit}

theorem exists_outcome (editors : List (ItemEditor Unit)) (item : Item) :
    ∃ outcome last, Ran editors item outcome last := by
  induction editors generalizing item with
  | nil => exact ⟨_, _, .done⟩
  | cons editor rest ih =>
    rcases hedit : editor.run.run item with ⟨_ | ⟨⟨⟩⟩, left⟩
    · exact ⟨_, _, .failed hedit⟩
    · obtain ⟨outcome, last, hrest⟩ := ih left
      exact ⟨outcome, last, .next hedit hrest⟩

theorem of_append (hran : Ran (first ++ second) item outcome last) :
    (∃ between, Ran first item (.ok ()) between ∧ Ran second between outcome last) ∨
      ∃ error, outcome = .error error ∧ Ran first item outcome last := by
  induction first generalizing item with
  | nil => exact .inl ⟨item, .done, hran⟩
  | cons editor rest ih =>
    cases hran with
    | next hedit hrest =>
      rcases ih hrest with ⟨between, hfirst, hsecond⟩ | ⟨error, rfl, hfirst⟩
      · exact .inl ⟨between, .next hedit hfirst, hsecond⟩
      · exact .inr ⟨error, rfl, .next hedit hfirst⟩
    | failed hedit => exact .inr ⟨_, rfl, .failed hedit⟩

theorem run_forM {steps : List Migration} {edit : Migration → ItemEditor Unit}
    (hran : Ran (steps.map edit) item outcome last) :
    (steps.forM edit).run.run item = (outcome, last) := by
  induction steps generalizing item with
  | nil =>
    cases hran
    rfl
  | cons step rest ih =>
    change (edit step >>= fun _ => rest.forM edit).run.run item = _
    cases hran with
    | next hedit hrest => rw [run_bind_of_ok hedit, ih hrest]
    | failed hedit => exact run_bind_of_error hedit

end Ran

/-- What the steps of a schedule do to an item: first their changes, then what relies on them. -/
def passes (steps : List Migration) : List (ItemEditor Unit) :=
  steps.map Migration.migrate ++ steps.map Migration.finish

/-! ### Upgrading -/

section Upgrading

variable {table : TableSchema} {steps : List Migration} {item last : Item} {stored : UInt32}
  {outcome : Except Error Unit}

/-- The item stamped with the version of the table. -/
def TableSchema.stamp (table : TableSchema) (item : Item) : Item :=
  Item.set item table.versionAttribute (Codec.versionAttribute table.version)

theorem TableSchema.storedAt_stamp (table : TableSchema) (item : Item) :
    table.StoredAt (table.stamp item) table.version :=
  storedAt_of_get? (Item.get?_set_self _ _ _)

theorem run_runMigrations_ok (hran : Ran (passes steps) item (.ok ()) last) :
    (runMigrations table steps).run.run item = (.ok (), table.stamp last) := by
  rcases hran.of_append with ⟨between, hmigrate, hfinish⟩ | ⟨_, hfailed, _⟩
  · unfold runMigrations
    rw [run_bind_of_ok hmigrate.run_forM, run_bind_of_ok hfinish.run_forM]
    rfl
  · cases hfailed

theorem run_runMigrations_error {error : Error} (hran : Ran (passes steps) item (.error error) last) :
    (runMigrations table steps).run.run item = (.error error, last) := by
  unfold runMigrations
  rcases hran.of_append with ⟨between, hmigrate, hfinish⟩ | ⟨_, _, hmigrate⟩
  · rw [run_bind_of_ok hmigrate.run_forM, run_bind_of_error hfinish.run_forM]
  · rw [run_bind_of_error hmigrate.run_forM]

theorem run_upgrade (hstored : table.StoredAt item stored) :
    (upgrade table steps).run.run item =
      (match MigrationState.ofVersion table stored with
        | .current => (return .current : ItemEditor Upgrade)
        | .incompatible stored => throw (Error.unsupportedVersion table.name stored table.version)
        | .stale stored =>
          if table.migrationsEnabled then do
            runMigrations table (steps.filter fun step => stored < step.version)
            return .migrated stored
          else return .unmigrated stored).run.run item := by
  obtain ⟨version, hversion, rfl⟩ := hstored.storedVersion
  have hget : (MonadState.get : ItemEditor Item).run.run item = (.ok item, item) := rfl
  unfold upgrade
  rw [run_bind_of_ok hget, hversion]
  rfl

theorem run_upgrade_current (hstored : table.StoredAt item table.version) :
    (upgrade table steps).run.run item = (.ok .current, item) := by
  rw [run_upgrade hstored, MigrationState.ofVersion, if_pos rfl]
  rfl

theorem run_upgrade_newer (steps : List Migration) (hstored : table.StoredAt item stored)
    (hnewer : table.version < stored) :
    (upgrade table steps).run.run item =
      (.error (.unsupportedVersion table.name stored table.version), item) := by
  have hne : stored ≠ table.version := (UInt32.ne_of_lt hnewer).symm
  have hnot : ¬ stored < table.version := UInt32.lt_asymm hnewer
  rw [run_upgrade hstored, MigrationState.ofVersion, if_neg hne, if_neg hnot]
  rfl

section Stale

variable (hstored : table.StoredAt item stored) (hstale : stored < table.version)
  (henabled : table.migrationsEnabled = true)
include hstored hstale henabled

theorem run_upgrade_stale :
    (upgrade table steps).run.run item = (do
      runMigrations table (steps.filter fun step => stored < step.version)
      return .migrated stored : ItemEditor Upgrade).run.run item := by
  rw [run_upgrade hstored, MigrationState.ofVersion, if_neg (UInt32.ne_of_lt hstale), if_pos hstale,
    henabled]
  rfl

theorem run_upgrade_ok
    (hran : Ran (passes (steps.filter fun step => stored < step.version)) item (.ok ()) last) :
    (upgrade table steps).run.run item = (.ok (.migrated stored), table.stamp last) := by
  rw [run_upgrade_stale hstored hstale henabled, run_bind_of_ok (run_runMigrations_ok hran)]
  rfl

theorem run_upgrade_error {error : Error}
    (hran : Ran (passes (steps.filter fun step => stored < step.version)) item (.error error) last) :
    (upgrade table steps).run.run item = (.error error, last) := by
  rw [run_upgrade_stale hstored hstale henabled, run_bind_of_error (run_runMigrations_error hran)]

end Stale

end Upgrading

/-- A load whose item cannot be upgraded fails as upgrading does, and leaves the session alone. -/
theorem Client.run_load_of_error {client : Client} {table : TableSchema} {item left : Item}
    {error : Error} (writesBack : Bool) (session : Session)
    (hupgrade : (upgrade table (client.registry.migrationsOf table.name)).run.run item =
      (.error error, left)) :
    (client.load table writesBack item).run.run session = (.error error, session) := by
  have hdecode : client.decode table item = .error error := by
    unfold decode
    rw [hupgrade]
  unfold load
  rw [hdecode]
  rfl

/-- What a client makes of an item of a table that migrates, stored at some version, when some steps
are registered for the table. -/
structure Client.Gates (client : Client) (table : TableSchema) (registered : List Migration)
    (item : Item) (stored : UInt32) : Prop where
  scheduled : ∃ steps, IsSchedule (registered.filter (Migration.isDue stored table.version)) steps ∧
    ∃ outcome last, Ran (passes steps) item outcome last
  /-- The due steps run in both passes as scheduled; upgrading again then does nothing. -/
  migrated : stored < table.version →
    ∀ steps, IsSchedule (registered.filter (Migration.isDue stored table.version)) steps →
      ∀ edited, Ran (passes steps) item (.ok ()) edited →
        (upgrade table (client.registry.migrationsOf table.name)).run.run item =
          (.ok (.migrated stored), table.stamp edited) ∧
        (upgrade table (client.registry.migrationsOf table.name)).run.run (table.stamp edited) =
          (.ok .current, table.stamp edited)
  /-- A step that fails fails the load, before any call of the store. -/
  failed : stored < table.version →
    ∀ steps, IsSchedule (registered.filter (Migration.isDue stored table.version)) steps →
      ∀ error left, Ran (passes steps) item (.error error) left →
        (upgrade table (client.registry.migrationsOf table.name)).run.run item =
          (.error error, left) ∧
        ∀ writesBack session,
          (client.load table writesBack item).run.run session = (.error error, session)
  /-- No step runs on an item at the version of its table, whatever it would do. -/
  current : stored = table.version → ∀ steps,
    (upgrade table steps).run.run item = (.ok .current, item)
  newer : table.version < stored →
    (upgrade table (client.registry.migrationsOf table.name)).run.run item =
      (.error (.unsupportedVersion table.name stored table.version), item) ∧
    ∀ writesBack session, (client.load table writesBack item).run.run session =
      (.error (.unsupportedVersion table.name stored table.version), session)

/-- Loading gates on versions: items below the version of their table go through the registered
steps that are due, those at it stay as they are, and those above it are refused. -/
theorem load_gated {description : SchemaDescription} {registrations : List (String × Migration)}
    {client : Client} {tableName : String} {table : TableSchema} {item : Item} {stored : UInt32}
    (hbuild : Registry.build description registrations = .ok client.registry)
    (htable : client.registry.requireTable tableName = .ok table)
    (henabled : table.migrationsEnabled = true) (hstored : table.StoredAt item stored) :
    client.Gates table (Registry.registeredFor tableName registrations) item stored := by
  have hpending := Registry.isSchedule_pending stored hbuild htable
  obtain rfl := Registry.name_of_requireTable htable
  constructor
  case scheduled => exact ⟨_, hpending, Ran.exists_outcome _ item⟩
  case migrated =>
    intro hstale steps hsteps edited hran
    rw [hsteps.unique hpending] at hran
    exact ⟨run_upgrade_ok hstored hstale henabled hran,
      run_upgrade_current (table.storedAt_stamp edited)⟩
  case failed =>
    intro hstale steps hsteps error left hran
    rw [hsteps.unique hpending] at hran
    have hupgrade := run_upgrade_error hstored hstale henabled hran
    exact ⟨hupgrade, fun writesBack session => Client.run_load_of_error writesBack session hupgrade⟩
  case current =>
    rintro rfl steps
    exact run_upgrade_current hstored
  case newer =>
    intro hnewer
    have hupgrade := run_upgrade_newer (client.registry.migrationsOf table.name) hstored hnewer
    exact ⟨hupgrade, fun writesBack session => Client.run_load_of_error writesBack session hupgrade⟩

/-- The description of a journal whose entries are at their third version. -/
def journalDescription : SchemaDescription where
  tables := [{
    name := "journal"
    namespaceName := ""
    rootType := "Entry"
    hashKey := "id"
    rangeKey := none
    version := 3
    optimisticLocking := false
    migrations := true
    versionAttribute := none
    revisionAttribute := none
    types := [⟨"Entry", [
      ⟨"id", none, .scalar, some .string, none, true, true, false, false, false, false, false⟩]⟩]
    indexes := [] }]

/-- Steps in no order, of which one sets the version itself and the last is never due. -/
def journalSteps : List (String × Migration) :=
  [("journal", .ofEdits 3 0 [.log "third"] [.log "third again"]),
    ("journal", .ofEdits 2 1 [.log "second"] []),
    ("journal", .ofEdits 2 0 [.set "_v" (.number "9"), .log "first"] [.log "first again"]),
    ("journal", .ofEdits 2 1 [.log "tied"] []),
    ("journal", .ofEdits 1 0 [.fail "not due"] [])]

def journalEntry : Item :=
  [("_v", .number "1"), ("id", .string "e")]

def journalTable : TableSchema where
  name := "journal"
  namespaceName := ""
  rootType := "Entry"
  version := 3
  optimisticLocking := false
  migrationsEnabled := true
  versionAttribute := "_v"
  revisionAttribute := "_rev"
  keys := ⟨⟨"id", "id", .string⟩, none⟩
  indexes := []
  expiryAttribute := none
  types := [⟨"Entry", [
    ⟨"id", "id", .scalar .string, none, true, true, false, false, false, false, false⟩]⟩]

theorem load_gated_journal :
    ∃ client : Client, Registry.build journalDescription journalSteps = .ok client.registry ∧
      client.registry.requireTable "journal" = .ok journalTable ∧
      client.Gates journalTable (Registry.registeredFor "journal" journalSteps) journalEntry 1 := by
  have hboth : (Registry.build journalDescription journalSteps >>= fun registry =>
      registry.requireTable "journal") = .ok journalTable := rfl
  obtain ⟨registry, hbuild, htable⟩ := bind_eq_ok_iff.mp hboth
  refine ⟨⟨registry, default⟩, hbuild, htable, ?_⟩
  refine load_gated hbuild htable rfl (.number rfl ?_)
  decide +kernel

example : ((Registry.build journalDescription journalSteps).toOption.map fun registry =>
    ((upgrade journalTable (registry.migrationsOf "journal")).run.run journalEntry).2) =
    some [("_v", .number "3"), ("id", .string "e"), ("log", .list [.string "first", .string "second",
      .string "tied", .string "third", .string "first again", .string "third again"])] := by
  cbv

end RecordStore
