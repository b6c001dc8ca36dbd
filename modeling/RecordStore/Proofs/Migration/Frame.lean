import RecordStore.Proofs.Migration.Race
import RecordStore.Proofs.Migration.Searching

/-!
# What reads leave alone

A read leaves every item of every table as it was, but for stale items that it received, upgraded and
stored again. Those keep their keys where reading a key and encoding it again gives the same
attributes; otherwise the record is stored under the key as it is encoded.
-/

namespace RecordStore

namespace RecordRead

variable {client : Client} {read : RecordRead} {start : Session}

theorem keeps_send (htables : Registry.Tables client.registry.tables)
    (hserves : start.store.Serves client.registry) (read : RecordRead) :
    Keeps client read start ((read.send client).run.run start).2 := by
  have hdrop : ∀ {α : Type} {computation : SessionCall α},
      Keeps client read start (computation.run.run start).2 →
      Keeps client read start ((do let _ ← computation : SessionCall Unit).run.run start).2 :=
    fun hkeeps => holds_bind hkeeps fun _ _ _ hlater => hlater
  cases read with
  | get request => exact hdrop (keeps_get htables hserves request)
  | search wanted => exact hdrop (keeps_search htables hserves wanted)
  | batch items => exact hdrop (keeps_batchGet htables hserves items)
  | transact gets => exact hdrop (keeps_transactGet gets start (.refl _ _))

/-- What is made from an item has its key, if that is read back as it is. -/
theorem Restores.keyOf? {table : TableSchema} {name : String} {source item : Item}
    (hrestores : read.Restores client start name source item) (haccepted : table.Accepted)
    (htable : client.table name = .ok table)
    (hkeeps : ∀ step ∈ client.registry.migrationsOf table.name,
      step.KeepsKey (.ofSchema table.keys)) (hkey : table.RestoresKey source) :
    (KeyNames.ofSchema table.keys).keyOf? item = (KeyNames.ofSchema table.keys).keyOf? source := by
  obtain ⟨other, _, upgraded, record, hother, _, _, _, hupgrade, hread, hitem⟩ := hrestores.migrates
  cases htable.symm.trans hother
  have hattributes : ∀ wire ∈ (KeyNames.ofSchema table.keys).attributes,
      Item.get? upgraded wire = Item.get? source wire := by
    intro wire hmem
    have hdeclared : ∃ component : KeyField, component.Declared table.root ∧
        component.wireName = wire := by
      rcases List.mem_cons.mp hmem with rfl | hrange
      · exact ⟨_, haccepted.hash, rfl⟩
      · obtain ⟨component, hcomponent, rfl⟩ :=
          Option.map_eq_some_iff.mp (Option.mem_toList.mp hrange)
        exact ⟨component, haccepted.range component hcomponent, rfl⟩
    obtain ⟨component, hdeclared, rfl⟩ := hdeclared
    exact get?_upgraded haccepted hkeeps hupgrade hdeclared hmem
  obtain ⟨key, hrecord, hupgraded⟩ := (hkey.congr hattributes).keyItem haccepted hread
  rw [Record.keyOf?_toItem haccepted (PreparedPut.advance_fields table record true) hitem hrecord,
    ← hupgraded]
  exact KeyNames.keyOf?_congr hattributes

/-- What a read leaves of the tables of a store. -/
structure Spares (client : Client) (read : RecordRead) (start : Session) (later : Store) : Prop where
  /-- Items are replaced under their own keys, or added under keys that no item had, and each new
  one is made from a stale item that the read received. -/
  rewritten : start.store.Rewritten (read.Leaves client start) later
  /-- Where the keys of stale items are read back as they are, each item that changes is replaced by
  what is made from itself. -/
  replaced : ∀ {name table before after}, client.table name = .ok table →
    start.store.table? name = some before → later.table? name = some after →
    (∀ item ∈ before.items, ∀ version, table.StoredAt item version → version < table.version →
      table.RestoresKey item) →
    List.Forall₂ (fun old new => new = old ∨ read.Restores client start name old new ∧
      before.keys.keyOf? new = before.keys.keyOf? old) before.items after.items
  /-- Reads of projections, of indexes and within transactions leave every table as it was. -/
  untouched : read.writesBack = false → ∀ name, later.table? name = start.store.table? name

end RecordRead

/-- Reads store nothing but what they migrate, whether they succeed or fail. -/
theorem RecordRead.spares {description : SchemaDescription}
    {registrations : List (String × Migration)} {client : Client} {start : Session}
    (hbuild : Registry.build description registrations = .ok client.registry)
    (hkeeps : ∀ table ∈ client.registry.tables, ∀ step ∈ client.registry.migrationsOf table.name,
      step.KeepsKey (.ofSchema table.keys))
    (hserves : start.store.Serves client.registry) (hkeyed : start.store.Keyed) (read : RecordRead) :
    read.Spares client start ((read.send client).run.run start).2.store := by
  have htables := Registry.tables_of_build hbuild
  have hsends := keeps_send htables hserves read
  constructor
  case rewritten => exact hsends
  case replaced =>
    intro name table before after htable hbefore hafter hkeys
    obtain ⟨known, hknown, hboth⟩ := hsends.exists_before hafter
    cases hbefore.symm.trans hknown
    have hmem : table ∈ client.registry.tables := Registry.mem_of_requireTable htable
    obtain ⟨served, hserved, hnames⟩ := hserves table hmem
    rw [Registry.name_of_requireTable htable, hbefore] at hserved
    cases hserved
    refine hboth.forall₂ (hkeyed.table hbefore) fun source hsource item hrestores => ?_
    obtain ⟨other, version, _, _, hother, _, hversion, hless, _⟩ := hrestores.migrates
    cases htable.symm.trans hother
    rw [hnames]
    exact hrestores.keyOf? (htables.accepted table hmem) htable (hkeeps table hmem)
      (hkeys source hsource version hversion hless)
  case untouched =>
    intro hplain name
    have hname := hsends name
    generalize start.store.table? name = before at hname ⊢
    generalize Store.table? _ name = after at hname ⊢
    cases hname with
    | none => rfl
    | some hboth =>
      refine congrArg some (hboth.eq_of_none ?_)
      rintro item ⟨source, _, hrestores⟩
      rw [hrestores.plain] at hplain
      cases hplain

def playersDescription : SchemaDescription where
  tables := [{
    name := "players"
    namespaceName := ""
    rootType := "Player"
    hashKey := "id"
    rangeKey := none
    version := 2
    optimisticLocking := false
    migrations := true
    versionAttribute := none
    revisionAttribute := none
    types := [⟨"Player", [
      ⟨"id", none, .scalar, some .long, none, true, true, false, false, false, false, false⟩,
      ⟨"name", none, .scalar, some .string, none, true, true, false, false, false, false, false⟩]⟩]
    indexes := [] }]

/-- Players of the first version have no name. -/
def playersSteps : List (String × Migration) :=
  [("players", .ofEdits 2 0 [.set "name" (.string "new")] [])]

def playersClient : Client where
  registry := match Registry.build playersDescription playersSteps with
    | .ok registry => registry
    | .error _ => ⟨[], []⟩
  config := ⟨default, true, .standard⟩

def playersStore (items : List Item) : Store where
  tables := [("players", ⟨⟨"id", none⟩, [], items, 1⟩)]
  calls := []
  unprocessedRounds := 0

def scanPlayers : RecordRead :=
  .search (.scan ⟨⟨"players", none, none, [], none, none, none⟩, none, none⟩)

theorem build_players :
    Registry.build playersDescription playersSteps = .ok playersClient.registry := rfl

theorem Migration.keepsKey_players : ∀ table ∈ playersClient.registry.tables,
    ∀ step ∈ playersClient.registry.migrationsOf table.name, step.KeepsKey (.ofSchema table.keys) := by
  intro table hmem step hstep
  cases List.mem_singleton.mp hmem
  rw [Registry.migrationsOf_of_build build_players, List.mem_mergeSort] at hstep
  cases List.mem_singleton.mp hstep
  exact Migration.keepsKey_ofEdits _ _ (by decide)

theorem Store.serves_players (items : List Item) :
    (playersStore items).Serves playersClient.registry := by
  intro table hmem
  cases List.mem_singleton.mp hmem
  exact ⟨_, rfl, rfl⟩

/-- A scan stores the one player again that has no name. -/
theorem RecordRead.spares_players :
    let start : Session := .start (playersStore [[("_v", .number "1"), ("id", .number "7")],
      [("_v", .number "2"), ("id", .number "8"), ("name", .string "old")]])
    let later := ((scanPlayers.send playersClient).run.run start).2.store
    start.store.Keyed ∧ later.items "players" =
        [[("_v", .number "2"), ("id", .number "7"), ("name", .string "new")],
          [("_v", .number "2"), ("id", .number "8"), ("name", .string "old")]] ∧
      scanPlayers.Spares playersClient start later := by
  intro start later
  have hkeyed : start.store.Keyed := by
    intro entry hmem
    cases List.mem_singleton.mp hmem
    refine ⟨fun item hmem => ?_, by decide⟩
    rcases List.mem_pair.mp hmem with rfl | rfl <;> exact ⟨_, rfl⟩
  exact ⟨hkeyed, by decide +kernel, RecordRead.spares build_players Migration.keepsKey_players
    (Store.serves_players _) hkeyed scanPlayers⟩

/-- A number with a leading zero is read as the number without it, under which nothing was stored. -/
theorem RecordRead.scan_adds_player :
    Registry.build playersDescription playersSteps = .ok playersClient.registry ∧
      (∀ table ∈ playersClient.registry.tables,
        ∀ step ∈ playersClient.registry.migrationsOf table.name,
          step.KeepsKey (.ofSchema table.keys)) ∧
      let start : Store := playersStore [[("_v", .number "1"), ("id", .number "05")]]
      let later := ((scanPlayers.send playersClient).run.run (.start start)).2.store
      start.bound "players" [("id", .number "5")] = none ∧
        later.bound "players" [("id", .number "5")] =
          some [("_v", .number "2"), ("id", .number "5"), ("name", .string "new")] ∧
        later.bound "players" [("id", .number "05")] =
          some [("_v", .number "1"), ("id", .number "05")] := by
  refine ⟨build_players, Migration.keepsKey_players, ?_⟩
  decide +kernel

end RecordStore
