import RecordStore.Proofs.Client.Write
import RecordStore.Proofs.Migration.Version

/-!
# Writes and the version of an item

What a save, an update or the write-back of a migrated record makes of a table: an item is either
stored at the version of its table, or takes the place of one at that version and keeps what that
one says of it. A write-back takes the place only of items below the version.
-/

namespace RecordStore

open Expression (Builder Clauses)

variable {table : TableSchema} {key other item : Item} {stored later : StoredTable}

/-- The keys of a table, whole. -/
def TableSchema.IsKey (table : TableSchema) (key : Item) : Prop :=
  (KeyNames.ofSchema table.keys).keyOf? key = some key

/-- An item that may be written where a table holds `held`, without lowering a version. -/
inductive TableSchema.Succeeds (table : TableSchema) (held : Option Item) (item : Item) : Prop where
  | stamped (hversion : Item.get? item table.versionAttribute =
      some (Codec.versionAttribute table.version)) : Succeeds table held item
  | kept {before : Item} (hheld : held = some before) (hcurrent : table.currentTest before = true)
      (hversion : Item.get? item table.versionAttribute =
        Item.get? before table.versionAttribute) : Succeeds table held item

/-- What becomes of a table that is written to at the version of its schema. -/
inductive StoredTable.Settles (table : TableSchema) (key : Item) (stored : StoredTable) :
    StoredTable → Prop where
  | wrote {item : Item} (hkey : table.IsKey key)
      (hitem : (KeyNames.ofSchema table.keys).keyOf? item = some key)
      (hsucceeds : table.Succeeds (stored.find? key) item) :
      Settles table key stored (stored.store key item)

/-- What a table holds under a key after a write is what it held, or follows it. -/
theorem StoredTable.Settles.find? (hsettles : stored.Settles table key later)
    (hother : table.IsKey other) :
    (other ≠ key ∧ later.find? other = stored.find? other) ∨
      other = key ∧ ∃ item, later.find? other = some item ∧
        table.Succeeds (stored.find? other) item := by
  obtain ⟨hkey, hitem, hsucceeds⟩ := hsettles
  by_cases hsame : other = key
  · subst hsame
    exact .inr ⟨rfl, _, StoredTable.find?_store _ (KeyNames.hasKey_of_keyOf? hitem), hsucceeds⟩
  · exact .inl ⟨hsame, StoredTable.find?_store_of_ne _ hitem hkey hother hsame⟩

theorem StoredTable.Settles.keys_eq (hsettles : stored.Settles table key later) :
    later.keys = stored.keys := by
  obtain ⟨_, _, _⟩ := hsettles
  rfl

/-- What follows an item, or nothing, is not below the version of its table. -/
theorem TableSchema.Succeeds.staleTest_eq {held : Option Item}
    (hsucceeds : table.Succeeds held item) : table.staleTest item = false := by
  cases hsucceeds with
  | stamped hversion =>
    rw [TableSchema.staleTest_of_number hversion (Decimal.readUInt32?_trim_toString _),
      decide_eq_false_iff_not]
    exact UInt32.lt_irrefl _
  | kept _ hcurrent hversion =>
    rw [TableSchema.staleTest_congr hversion]
    exact TableSchema.staleTest_of_currentTest hcurrent

/-- What follows an item at the version of its table is at that version. -/
theorem TableSchema.Succeeds.storedAt {before : Item} (hsucceeds : table.Succeeds (some before) item)
    (hbefore : table.StoredAt before table.version) : table.StoredAt item table.version := by
  cases hsucceeds with
  | stamped hversion => exact TableSchema.storedAt_of_get? hversion
  | kept hheld _ hversion =>
    cases hheld
    exact hbefore.congr hversion.symm

/-! ### Saving -/

section Saving

variable {record : Record} {options : SaveOptions} {isMigrated : Bool} {prepared : PreparedPut}

theorem TableSchema.isKey_of_keyItem (hkey : table.keyItem record = .ok key) : table.IsKey key := by
  obtain ⟨recordKey, _, htoItem⟩ := TableSchema.keyItem_ok hkey
  exact KeySchema.keyOf?_toItem htoItem

theorem Record.get?_version_toItem (haccepted : table.Accepted)
    (hstore : record.toItem table = .ok item) :
    Item.get? item table.versionAttribute = some (Codec.versionAttribute table.version) := by
  obtain ⟨object, _, rfl⟩ := Record.toItem_ok hstore
  split
  · rw [Item.get?_set_of_ne _ _ haccepted.counters.symm, Item.get?_set_self]
  · exact Item.get?_set_self _ _ _

/-- A record that is ready to be stored has its key, and is at the version of its table. -/
theorem PreparedPut.prepare_ok (haccepted : table.Accepted)
    (hprepare : prepare table record options isMigrated = .ok prepared) :
    table.keyItem record = .ok prepared.key ∧
      (KeyNames.ofSchema table.keys).keyOf? prepared.item = some prepared.key ∧
      Item.get? prepared.item table.versionAttribute =
        some (Codec.versionAttribute table.version) ∧
      ∃ builder, Builder.run "" (require table record.revision options isMigrated) =
        .ok ((), builder) ∧ prepared.compiled = builder.compile := by
  obtain ⟨item, hitem, hprepare⟩ := bind_eq_ok_iff.mp hprepare
  obtain ⟨key, hkey, hprepare⟩ := bind_eq_ok_iff.mp hprepare
  obtain ⟨⟨⟨⟩, builder⟩, hbuilt, hdone⟩ := bind_eq_ok_iff.mp hprepare
  cases hdone
  exact ⟨hkey, Record.keyOf?_toItem haccepted (advance_fields table record options.locking) hitem
    hkey, Record.get?_version_toItem haccepted hitem, builder, hbuilt, rfl⟩

/-- The put of a write-back is rejected, or applied in the place of an item below the version of its
table. -/
theorem PreparedPut.put_stale (haccepted : table.Accepted)
    (hprepare : prepare table record .standard true = .ok prepared)
    (hkeys : stored.keys = .ofSchema table.keys) :
    stored.put prepared.item prepared.compiled.guard.condition prepared.compiled.guard.bindings =
        .ok .rejected ∨
      table.staleTest ((stored.find? prepared.key).getD []) = true ∧
        stored.put prepared.item prepared.compiled.guard.condition
            prepared.compiled.guard.bindings =
          .ok (.applied (stored.store prepared.key prepared.item, stored.find? prepared.key)) := by
  obtain ⟨_, hitem, _, builder, hbuilt, hcompiled⟩ := prepare_ok haccepted hprepare
  obtain ⟨clauses, hasks, hreads⟩ := (adds_requireStale table record.revision).run_ok hbuilt
  have hmeets := hreads.meets ((stored.find? prepared.key).getD [])
  rw [hcompiled]
  rw [← hkeys] at hitem
  have hput := StoredTable.put_of_meets hitem hmeets
  cases hheld : clauses.meets ((stored.find? prepared.key).getD []) with
  | false =>
    rw [hheld] at hput
    exact .inl hput
  | true =>
    rw [hheld] at hput
    exact .inr ⟨List.all_eq_true.mp hheld _ hasks, hput⟩

/-- Putting a record leaves the tables as they were and fails, or stores what the record is encoded
to. -/
theorem Client.PutEnds.stores {store last : Store} {outcome : Except Error Record}
    (hends : PutEnds table record options isMigrated store last outcome)
    (haccepted : table.Accepted) (hholds : store.Holds table stored) :
    (outcome.isOk = false ∧ last.tables = store.tables) ∨
      outcome.isOk = true ∧ ∃ item key,
        (PreparedPut.advance table record options.locking).toItem table = .ok item ∧
        table.keyItem record = .ok key ∧ stored.keys.keyOf? item = some key ∧
        last.tables = (store.setTable table.name (stored.store key item)).tables := by
  cases hends with
  | unsent _ htables => exact .inl ⟨rfl, htables⟩
  | rejected _ _ _ htables => exact .inl ⟨rfl, htables⟩
  | refused _ _ htables => exact .inl ⟨rfl, htables⟩
  | @applied prepared other left old hprepare htable hput htables =>
    obtain rfl := Option.some.inj (hholds.table?_eq.symm.trans htable)
    obtain ⟨hkey, hitem, _⟩ := PreparedPut.prepare_ok haccepted hprepare
    obtain ⟨item, hstored, hrest⟩ := bind_eq_ok_iff.mp hprepare
    have hprepared : prepared.item = item := by
      obtain ⟨_, _, hrest⟩ := bind_eq_ok_iff.mp hrest
      obtain ⟨_, _, hdone⟩ := bind_eq_ok_iff.mp hrest
      cases hdone
      rfl
    rw [← hholds.keys_eq] at hitem
    have hleft : left = stored.store prepared.key prepared.item := by
      unfold StoredTable.put at hput
      rw [hitem] at hput
      obtain ⟨accepted, _, hput⟩ := bind_eq_ok_iff.mp hput
      cases accepted with
      | false => cases hput
      | true =>
        cases hput
        rfl
    rw [hleft] at htables
    exact .inr ⟨rfl, prepared.item, prepared.key, hprepared ▸ hstored, hkey, hitem, htables⟩

/-- Putting a record leaves the table as it was and fails, or writes it at the version of its schema. -/
theorem Client.PutEnds.settles {store last : Store} {outcome : Except Error Record}
    (hends : PutEnds table record options isMigrated store last outcome)
    (haccepted : table.Accepted) (hholds : store.Holds table stored) :
    ∃ left, last.Holds table left ∧ ((outcome.isOk = false ∧ left = stored) ∨
      ∃ key, table.keyItem record = .ok key ∧ stored.Settles table key left) := by
  rcases hends.stores haccepted hholds with ⟨hfailed, htables⟩ | ⟨_, item, key, hitem, hkey, hheld, htables⟩
  · exact ⟨stored, hholds.of_tables_eq htables, .inl ⟨hfailed, rfl⟩⟩
  · rw [hholds.keys_eq] at hheld
    exact ⟨stored.store key item, hholds.of_setTable htables rfl, .inr ⟨key, hkey,
      .wrote (TableSchema.isKey_of_keyItem hkey) hheld
        (.stamped (Record.get?_version_toItem haccepted hitem))⟩⟩

/-- A write-back is applied only in the place of an item below the version, and once it is sent
nothing but a conflict keeps it from being applied. -/
theorem Client.PutEnds.stale {store last : Store} {outcome : Except Error Record}
    (hends : PutEnds table record .standard true store last outcome)
    (haccepted : table.Accepted) (hholds : store.Holds table stored) :
    (outcome.isOk = true → ∃ key, table.keyItem record = .ok key ∧
      table.staleTest ((stored.find? key).getD []) = true) ∧
    (outcome.isOk = false → (PreparedPut.prepare table record .standard true).isOk = true →
      ∃ context, outcome = .error (.writeConflict context)) := by
  cases hends with
  | unsent hprepare =>
    rw [hprepare]
    exact ⟨fun hok => Bool.noConfusion hok, fun _ hok => Bool.noConfusion hok⟩
  | applied hprepare htable hput =>
    obtain rfl := Option.some.inj (hholds.table?_eq.symm.trans htable)
    refine ⟨fun _ => ⟨_, (PreparedPut.prepare_ok haccepted hprepare).1, ?_⟩,
      fun hfailed => Bool.noConfusion hfailed⟩
    rcases PreparedPut.put_stale haccepted hprepare hholds.keys_eq with hrejected | ⟨hstale, _⟩
    · rw [hput] at hrejected
      cases hrejected
    · exact hstale
  | rejected => exact ⟨fun hok => Bool.noConfusion hok, fun _ _ => ⟨_, rfl⟩⟩
  | refused hprepare hput =>
    obtain ⟨fault, hfault⟩ := hput stored hholds.table?_eq
    rcases PreparedPut.put_stale haccepted hprepare hholds.keys_eq with hrejected | ⟨_, happlied⟩
    · rw [hfault] at hrejected
      cases hrejected
    · rw [hfault] at happlied
      cases happlied

end Saving

/-! ### Updating -/

/-- What an update makes of an item has its version. -/
theorem Update.get?_version_applyUpdate {builder : Builder} {clauses : Clauses}
    {expression : String} {left : Item} (hreads : builder.Reads clauses)
    (hactions : ∀ action ∈ clauses.actions, action.path.head? ≠ some table.versionAttribute)
    (hwrites : builder.compile.update = some expression)
    (happly : Expression.applyUpdate item expression builder.compile.guard.bindings = .ok left) :
    Item.get? left table.versionAttribute = Item.get? item table.versionAttribute := by
  have hne : clauses.actions ≠ [] := by
    intro hnone
    rw [hreads.update_eq_none hnone] at hwrites
    cases hwrites
  obtain ⟨text, htext, hparse⟩ := hreads.update hne
  rw [hwrites] at htext
  cases htext
  obtain ⟨parsed, hparsed, happly⟩ := bind_eq_ok_iff.mp happly
  have hsame : parsed = clauses.actions := Except.ok.inj (hparsed.symm.trans hparse)
  rw [hsame] at happly
  exact Expression.get?_of_applyAll happly hactions

/-- An update that is made keeps the version of the item, which is that of its table. -/
theorem Update.settles_update {update : Update} {builder : Builder} {expression : String}
    {updated : StoredTable.Updated} (haccepted : table.Accepted)
    (henabled : table.migrationsEnabled = true)
    (hrun : Builder.run "" (update.build table) = .ok ((), builder))
    (hwrites : builder.compile.update = some expression)
    (hkeys : stored.keys = .ofSchema table.keys) (hkey : table.IsKey key)
    (hupdate : stored.update key expression builder.compile.guard.condition
      builder.compile.guard.bindings = .ok (.applied (later, updated))) :
    stored.Settles table key later := by
  have hexact : stored.exactKey key = .ok key := by
    rw [StoredTable.exactKey, hkeys, hkey]
    exact if_pos rfl
  obtain ⟨clauses, hreads, hcurrent, hactions⟩ := reads_current haccepted hrun hwrites
  obtain ⟨hmeets, happly, hitem, rfl⟩ := StoredTable.update_applied hexact hupdate
  rw [hkeys] at hitem
  refine .wrote hkey hitem ?_
  have haccepts := (hreads.meets ((stored.find? key).getD [])).symm.trans hmeets
  have htest := List.all_eq_true.mp (Except.ok.inj haccepts) _ (hcurrent henabled)
  cases hfind : stored.find? key with
  | none =>
    rw [hfind] at htest
    cases htest
  | some held =>
    rw [hfind] at htest happly
    exact .kept rfl htest (get?_version_applyUpdate hreads hactions hwrites happly)

/-- Sending an update leaves the table as it was, or writes at the version of its schema. -/
theorem Client.UpdateEnds.settles {update : Update} {store last : Store}
    {outcome : Except Error Record} (hends : UpdateEnds table update store last outcome)
    (haccepted : table.Accepted) (henabled : table.migrationsEnabled = true)
    (hholds : store.Holds table stored) (hkey : table.IsKey update.key) :
    ∃ left, last.Holds table left ∧ (left = stored ∨ stored.Settles table update.key left) := by
  cases hends with
  | unmade htables => exact ⟨stored, hholds.of_tables_eq htables, .inl rfl⟩
  | applied hbuilt hwrites htable hupdate htables =>
    obtain rfl := Option.some.inj (hholds.table?_eq.symm.trans htable)
    have hsettles := Update.settles_update haccepted henabled hbuilt hwrites hholds.keys_eq hkey
      hupdate
    exact ⟨_, hholds.of_setTable htables hsettles.keys_eq, .inr hsettles⟩

end RecordStore
