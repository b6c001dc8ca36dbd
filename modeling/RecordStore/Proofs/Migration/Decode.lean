import RecordStore.Migration.Edit
import RecordStore.Proofs.Codec.Fill
import RecordStore.Proofs.Codec.Key
import RecordStore.Proofs.Migration.Gate

/-!
# Keys through migrations

Steps that leave the key attributes of an item alone leave its record under the same key: whatever
else two items with one key hold, the records that are read from them have one key.
-/

namespace RecordStore

/-! ### Editors that keep an attribute -/

/-- An editor that goes well leaves an attribute as it was. -/
def ItemEditor.Keeps {α : Type} (name : String) (editor : ItemEditor α) : Prop :=
  ∀ item later value, editor.run.run item = (.ok value, later) →
    Item.get? later name = Item.get? item name

namespace ItemEditor.Keeps

variable {α β : Type} {name : String}

theorem bind {first : ItemEditor α} {next : α → ItemEditor β} (hfirst : ItemEditor.Keeps name first)
    (hnext : ∀ value, ItemEditor.Keeps name (next value)) :
    ItemEditor.Keeps name (first >>= next) := by
  intro item later value hrun
  obtain ⟨middle, between, hfirstRun, hnextRun⟩ := run_bind_ok hrun
  rw [hnext middle between later value hnextRun, hfirst item between middle hfirstRun]

theorem pure (value : α) : ItemEditor.Keeps name (Pure.pure value : ItemEditor α) := by
  intro item later result hrun
  rw [(run_pure_ok hrun).2]

theorem modify {change : Item → Item}
    (hchange : ∀ item, Item.get? (change item) name = Item.get? item name) :
    ItemEditor.Keeps name (modify change : ItemEditor PUnit) := by
  intro item later value hrun
  cases hrun
  exact hchange item

theorem forM {items : List α} {edit : α → ItemEditor Unit}
    (hitems : ∀ item ∈ items, ItemEditor.Keeps name (edit item)) :
    ItemEditor.Keeps name (items.forM edit) := by
  induction items with
  | nil => exact .pure ()
  | cons item rest ih =>
    exact (hitems item List.mem_cons_self).bind fun _ =>
      ih fun other hmem => hitems other (List.mem_cons_of_mem _ hmem)

end ItemEditor.Keeps

/-- A step that leaves the attributes of a key alone. -/
structure Migration.KeepsKey (keys : KeyNames) (step : Migration) : Prop where
  migrate : ∀ name ∈ keys.attributes, ItemEditor.Keeps name step.migrate
  finish : ∀ name ∈ keys.attributes, ItemEditor.Keeps name step.finish

/-- The attributes that an edit may change. -/
def ItemEdit.touches : ItemEdit → List String
  | set name _ => [name]
  | remove name => [name]
  | rename source target => [source, target]
  | copy _ target => [target]
  | log _ => ["log"]
  | fail _ => []

theorem ItemEdit.keeps_apply {edit : ItemEdit} {name : String} (hname : name ∉ edit.touches) :
    ItemEditor.Keeps name edit.apply := by
  cases edit with
  | set target value =>
    exact .modify fun item => Item.get?_set_of_ne _ _ (Ne.symm (by simpa [touches] using hname))
  | remove target =>
    refine .modify fun item => ?_
    rw [Item.get?_erase, if_neg (Ne.symm (by simpa [touches] using hname))]
  | rename source target =>
    simp only [touches, List.mem_cons, List.not_mem_nil, or_false, not_or] at hname
    refine .modify fun item => ?_
    split
    · rw [Item.get?_set_of_ne _ _ (Ne.symm hname.2), Item.get?_erase, if_neg (Ne.symm hname.1)]
    · rfl
  | copy source target =>
    refine .modify fun item => ?_
    split
    · exact Item.get?_set_of_ne _ _ (Ne.symm (by simpa [touches] using hname))
    · rfl
  | log text =>
    have hlog : "log" ≠ name := Ne.symm (by simpa [touches] using hname)
    refine .modify fun item => ?_
    unfold appendLog
    split <;> exact Item.get?_set_of_ne _ _ hlog
  | fail reason =>
    intro item later value hrun
    cases hrun

/-- Declared edits of other attributes keep the key. -/
theorem Migration.keepsKey_ofEdits {keys : KeyNames} (version sequence : UInt32)
    {edits finishing : List ItemEdit}
    (hedits : ∀ name ∈ keys.attributes, ∀ edit ∈ edits ++ finishing, name ∉ edit.touches) :
    (Migration.ofEdits version sequence edits finishing).KeepsKey keys where
  migrate name hname := .forM fun edit hmem =>
    edit.keeps_apply (hedits name hname edit (List.mem_append_left _ hmem))
  finish name hname := .forM fun edit hmem =>
    edit.keeps_apply (hedits name hname edit (List.mem_append_right _ hmem))

section Upgrading

variable {table : TableSchema} {steps : List Migration} {name : String}

theorem keeps_runMigrations (hname : table.versionAttribute ≠ name)
    (hmigrate : ∀ step ∈ steps, ItemEditor.Keeps name step.migrate)
    (hfinish : ∀ step ∈ steps, ItemEditor.Keeps name step.finish) :
    ItemEditor.Keeps name (runMigrations table steps) := by
  refine (ItemEditor.Keeps.forM hmigrate).bind fun _ =>
    (ItemEditor.Keeps.forM hfinish).bind fun _ => ?_
  intro item later value hrun
  cases hrun
  exact Item.get?_set_of_ne _ _ hname

/-- An item that is upgraded stays as it is, or was below the version of its table and goes through
the pending steps. -/
theorem upgrade_ok {item later : Item} {outcome : Upgrade}
    (hrun : (upgrade table steps).run.run item = (.ok outcome, later)) :
    (later = item ∧ ∀ stored, outcome ≠ .migrated stored) ∨
      ∃ stored, stored < table.version ∧ (runMigrations table
        (steps.filter fun step => stored < step.version)).run.run item = (.ok (), later) := by
  obtain ⟨held, between, hget, hread⟩ := run_bind_ok hrun
  cases hget
  obtain ⟨version, left, hversion, hrest⟩ := run_bind_ok hread
  obtain ⟨_, rfl⟩ := run_except_ok hversion
  split at hrest
  · cases hrest
    exact .inl ⟨rfl, fun _ => Upgrade.noConfusion⟩
  · cases hrest
  · rename_i stored hstate
    split at hrest
    · obtain ⟨⟨⟩, migrated, hmigrations, hdone⟩ := run_bind_ok hrest
      cases hdone
      refine .inr ⟨stored, ?_, hmigrations⟩
      unfold MigrationState.ofVersion at hstate
      split at hstate
      · cases hstate
      · split at hstate
        · rename_i hless
          cases hstate
          exact hless
        · cases hstate
    · cases hrest
      exact .inl ⟨rfl, fun _ => Upgrade.noConfusion⟩

/-- Only items below the version of a table that migrates are migrated. -/
theorem migrated_of_upgrade {item later : Item} {stored : UInt32}
    (hrun : (upgrade table steps).run.run item = (.ok (.migrated stored), later)) :
    table.migrationsEnabled = true ∧ table.StoredAt item stored ∧ stored < table.version := by
  obtain ⟨held, between, hget, hread⟩ := run_bind_ok hrun
  cases hget
  obtain ⟨version, left, hversion, _⟩ := run_bind_ok hread
  obtain ⟨hversion, _⟩ := run_except_ok hversion
  have hstored := TableSchema.storedAt_of_storedVersion hversion
  rw [run_upgrade hstored] at hrun
  unfold MigrationState.ofVersion at hrun
  split at hrun
  · cases hrun
  · cases hrun
  · rename_i other hstate
    split at hstate
    · cases hstate
    · split at hstate
      · rename_i hless
        cases hstate
        split at hrun
        · rename_i henabled
          obtain ⟨⟨⟩, migrated, _, hdone⟩ := run_bind_ok hrun
          cases hdone
          exact ⟨henabled, hstored, hless⟩
        · cases hrun
      · cases hstate

/-- Upgrading changes an attribute only if some step does. -/
theorem keeps_upgrade (hname : table.versionAttribute ≠ name)
    (hmigrate : ∀ step ∈ steps, ItemEditor.Keeps name step.migrate)
    (hfinish : ∀ step ∈ steps, ItemEditor.Keeps name step.finish) :
    ItemEditor.Keeps name (upgrade table steps) := by
  intro item later outcome hrun
  rcases upgrade_ok hrun with ⟨rfl, _⟩ | ⟨stored, _, hmigrations⟩
  · rfl
  · exact keeps_runMigrations hname
      (fun step hmem => hmigrate step (List.mem_filter.mp hmem).1)
      (fun step hmem => hfinish step (List.mem_filter.mp hmem).1) item later () hmigrations

end Upgrading

/-! ### Reading keys -/

variable {table : TableSchema} {item : Item} {record : Record}

/-- A record that was read holds what is read of each field. -/
theorem Codec.get?_readMembers {held : List (String × (FieldSchema → Except Error Value))}
    {declared : List FieldSchema} {start : Record} {field : FieldSchema}
    (hread : readMembers held start declared = .ok record)
    (hnames : (declared.map FieldSchema.name).Nodup) (hmem : field ∈ declared) :
    ∃ value, readMember held field = .ok value ∧
      record.get? field.name = if value.isNull then none else some value := by
  have hother : ∀ (rest : List FieldSchema) (start : Record) name,
      readMembers held start rest = .ok record → name ∉ rest.map FieldSchema.name →
      record.get? name = start.get? name := by
    intro rest
    induction rest with
    | nil =>
      intro start name hread _
      cases hread
      rfl
    | cons first rest ih =>
      intro start name hread hfresh
      rw [readMembers_cons] at hread
      obtain ⟨value, _, hread⟩ := bind_eq_ok_iff.mp hread
      rw [List.map_cons, List.mem_cons, not_or] at hfresh
      rw [ih _ name hread hfresh.2, Record.get?_set, if_neg (Ne.symm hfresh.1)]
  induction declared generalizing start with
  | nil => cases hmem
  | cons first rest ih =>
    obtain ⟨hfresh, hrest⟩ := List.nodup_cons.mp hnames
    rw [readMembers_cons] at hread
    obtain ⟨value, hvalue, hread⟩ := bind_eq_ok_iff.mp hread
    rcases List.mem_cons.mp hmem with rfl | hmem
    · refine ⟨value, hvalue, ?_⟩
      rw [hother rest _ _ hread hfresh, Record.get?_set, if_pos rfl]
    · exact ih hread hrest hmem

/-- What a record holds of a component of its key is read from the attribute of the component. -/
theorem KeyField.get?_ofItem {key : KeyField} (haccepted : table.Accepted)
    (hdeclared : key.Declared table.root) (hread : Record.ofItem table item = .ok record) :
    ∃ (field : FieldSchema) (value : Value), table.root.field? key.field = some field ∧
      (match Item.get? item key.wireName with
        | some stored => Codec.decode table .plain (.scalar key.element) stored
        | none => .ok field.absentValue) = .ok value ∧
      record.get? key.field = if value.isNull then none else some value := by
  obtain ⟨field, hfield, hwire, hpersist, htype, _⟩ := hdeclared
  have hmem : field ∈ table.root.fields := List.mem_of_find?_eq_some hfield
  have hname : field.name = key.field := by simpa using List.find?_some hfield
  obtain ⟨object, hobject, hdone⟩ := bind_eq_ok_iff.mp hread
  obtain ⟨value, hvalue, hget⟩ :=
    Codec.get?_readMembers hobject haccepted.root_distinct.names hmem
  rw [Codec.readMember, Codec.find?_decodeFields, hwire, hpersist] at hvalue
  rw [hname] at hget
  refine ⟨field, value, hfield, ?_, ?_⟩
  · rw [← hvalue]
    cases Item.get? item key.wireName with
    | none => rfl
    | some stored =>
      simp only [Option.map_some, if_true]
      rw [haccepted.root_distinct.storage_of_scalar hmem htype, htype]
  · split at hdone
    · obtain ⟨revision, _, hdone⟩ := bind_eq_ok_iff.mp hdone
      cases hdone
      exact hget
    · cases hdone
      exact hget

theorem KeyField.get?_congr {key : KeyField} {first second : Item} {left right : Record}
    (haccepted : table.Accepted) (hdeclared : key.Declared table.root)
    (hleft : Record.ofItem table first = .ok left) (hright : Record.ofItem table second = .ok right)
    (hsame : Item.get? first key.wireName = Item.get? second key.wireName) :
    left.get? key.field = right.get? key.field := by
  obtain ⟨field, value, hfield, hvalue, hget⟩ := KeyField.get?_ofItem haccepted hdeclared hleft
  obtain ⟨other, held, hother, hheld, hgetOther⟩ :=
    KeyField.get?_ofItem haccepted hdeclared hright
  cases hfield.symm.trans hother
  rw [hsame, hheld] at hvalue
  cases hvalue
  rw [hget, hgetOther]

theorem KeyField.ofRecord_congr {key : KeyField} {left right : Record} {value : Value}
    (hsame : left.get? key.field = right.get? key.field) (hread : key.ofRecord left = .ok value) :
    key.ofRecord right = .ok value := by
  obtain ⟨hheld, hnotNull⟩ := KeyField.ofRecord_ok hread
  rw [hsame] at hheld
  unfold ofRecord
  rw [hheld]
  cases value <;> first | rfl | cases hnotNull

/-- Records that hold the same in the fields of a key have the same key. -/
theorem TableSchema.keyItem_congr {left right : Record} {key : Item}
    (hhash : left.get? table.keys.hash.field = right.get? table.keys.hash.field)
    (hrange : ∀ component ∈ table.keys.range,
      left.get? component.field = right.get? component.field)
    (hkey : table.keyItem left = .ok key) : table.keyItem right = .ok key := by
  obtain ⟨recordKey, hread, htoItem⟩ := TableSchema.keyItem_ok hkey
  suffices hright : table.keys.ofRecord right = .ok recordKey by
    unfold keyItem
    rw [hright]
    exact htoItem
  unfold KeySchema.ofRecord at hread ⊢
  obtain ⟨hash, hhashRead, hread⟩ := bind_eq_ok_iff.mp hread
  rw [KeyField.ofRecord_congr hhash hhashRead, ok_bind]
  split at hread
  · exact hread
  · rename_i component hcomponent
    obtain ⟨value, hvalue, hdone⟩ := bind_eq_ok_iff.mp hread
    rw [KeyField.ofRecord_congr (hrange component hcomponent) hvalue]
    exact hdone

/-! ### Decoding -/

/-- An item is read as it is after upgrading. -/
theorem Client.exists_upgraded {client : Client} {loaded : Loaded}
    (hdecode : client.decode table item = .ok loaded) :
    ∃ outcome upgraded,
      (upgrade table (client.registry.migrationsOf table.name)).run.run item =
        (.ok outcome, upgraded) ∧ Record.ofItem table upgraded = .ok loaded.record ∧
      (loaded.isMigrated = true → ∃ stored, outcome = .migrated stored) := by
  unfold decode at hdecode
  split at hdecode
  · rename_i outcome upgraded hupgrade
    obtain ⟨record, hofItem, hdone⟩ := bind_eq_ok_iff.mp hdecode
    cases hdone
    refine ⟨outcome, upgraded, hupgrade, hofItem, fun hmigrated => ?_⟩
    cases outcome with
    | migrated stored => exact ⟨stored, rfl⟩
    | current => cases hmigrated
    | unmigrated => cases hmigrated
  · cases hdecode

/-- Items that go on through the migrations are those below the version of their table. -/
theorem Client.version_pos_of_decode {client : Client} {loaded : Loaded}
    (hdecode : client.decode table item = .ok loaded) (hmigrated : loaded.isMigrated = true) :
    0 < table.version := by
  obtain ⟨_, _, hupgrade, _, hstale⟩ := exists_upgraded hdecode
  obtain ⟨stored, rfl⟩ := hstale hmigrated
  obtain ⟨_, _, hless⟩ := migrated_of_upgrade hupgrade
  rw [UInt32.lt_iff_toNat_lt] at hless ⊢
  exact Nat.lt_of_le_of_lt (Nat.zero_le _) hless

/-- Steps that keep a key leave its attributes as they were. -/
theorem get?_upgraded {steps : List Migration} {upgraded : Item} {outcome : Upgrade}
    (haccepted : table.Accepted) (hkeeps : ∀ step ∈ steps, step.KeepsKey (.ofSchema table.keys))
    (hupgrade : (upgrade table steps).run.run item = (.ok outcome, upgraded))
    {component : KeyField} (hdeclared : component.Declared table.root)
    (hmem : component.wireName ∈ (KeyNames.ofSchema table.keys).attributes) :
    Item.get? upgraded component.wireName = Item.get? item component.wireName := by
  obtain ⟨field, hfield, hwire, hpersist, _⟩ := hdeclared
  have hname : table.versionAttribute ≠ component.wireName := by
    rw [← hwire]
    exact (haccepted.not_reserved (List.mem_of_find?_eq_some hfield) hpersist).1
  exact keeps_upgrade hname (fun step hstep => (hkeeps step hstep).migrate _ hmem)
    (fun step hstep => (hkeeps step hstep).finish _ hmem) item upgraded outcome hupgrade

/-- Clients with the same steps, which keep keys, read items with one key as records with one key. -/
theorem Client.keyItem_decode {client other : Client} {first second key : Item}
    {left right : Loaded} (haccepted : table.Accepted) (hregistry : other.registry = client.registry)
    (hkeeps : ∀ step ∈ client.registry.migrationsOf table.name,
      step.KeepsKey (.ofSchema table.keys))
    (hfirst : (KeyNames.ofSchema table.keys).keyOf? first = some key)
    (hsecond : (KeyNames.ofSchema table.keys).keyOf? second = some key)
    (hleft : client.decode table first = .ok left) (hright : other.decode table second = .ok right)
    {recordKey : Item} (hkey : table.keyItem left.record = .ok recordKey) :
    table.keyItem right.record = .ok recordKey := by
  obtain ⟨_, firstUpgraded, hfirstRun, hfirstRead, _⟩ := exists_upgraded hleft
  obtain ⟨_, secondUpgraded, hsecondRun, hsecondRead, _⟩ := exists_upgraded hright
  rw [hregistry] at hsecondRun
  have hcomponent : ∀ component : KeyField, component.Declared table.root →
      component.wireName ∈ (KeyNames.ofSchema table.keys).attributes →
      left.record.get? component.field = right.record.get? component.field := by
    intro component hdeclared hmem
    apply KeyField.get?_congr haccepted hdeclared hfirstRead hsecondRead
    rw [get?_upgraded haccepted hkeeps hfirstRun hdeclared hmem,
      get?_upgraded haccepted hkeeps hsecondRun hdeclared hmem]
    exact KeyNames.get?_eq_of_keyOf? hfirst hsecond _ hmem
  apply TableSchema.keyItem_congr _ _ hkey
  · exact hcomponent _ haccepted.hash List.mem_cons_self
  · intro component hmem
    apply hcomponent component (haccepted.range component hmem)
    rw [Option.mem_def] at hmem
    simp [KeyNames.attributes, KeyNames.ofSchema, hmem]

/-! ### Keys that are stored as they are read -/

/-- Reading the key of an item and storing it again gives the same key attributes. -/
def TableSchema.RestoresKey (table : TableSchema) (item : Item) : Prop :=
  ∃ recordKey key, table.keys.ofItem item = .ok recordKey ∧
    table.keys.toItem recordKey = .ok key ∧ (KeyNames.ofSchema table.keys).keyOf? item = some key

theorem Codec.decode_of_decodeKey {element : ElementType} {stored : Attribute} {value : Value}
    (hread : decodeKey stored element = .ok value) :
    decode table .plain (.scalar element) stored = .ok value ∧ value.isNull = false := by
  unfold decodeKey at hread
  split at hread
  · cases hread
    exact ⟨rfl, rfl⟩
  · cases hread
    exact ⟨rfl, rfl⟩
  · rename_i declared text hbinary
    split at hread
    · rename_i hnumeric
      obtain ⟨number, hnumber, rfl⟩ := map_eq_ok_iff.mp hread
      rw [decode_number _ hnumeric, hnumber]
      exact ⟨rfl, rfl⟩
    · cases hread
  · cases hread

theorem KeyField.ofRecord_of_ofItem {key : KeyField} {value : Value} (haccepted : table.Accepted)
    (hdeclared : key.Declared table.root) (hread : Record.ofItem table item = .ok record)
    (hvalue : key.ofItem item = .ok value) : key.ofRecord record = .ok value := by
  obtain ⟨field, held, _, hheld, hget⟩ := KeyField.get?_ofItem haccepted hdeclared hread
  unfold ofItem at hvalue
  split at hvalue
  · rename_i stored hstored
    obtain ⟨hdecode, hnull⟩ := @Codec.decode_of_decodeKey table _ _ _ hvalue
    rw [hstored] at hheld
    cases hdecode.symm.trans hheld
    rw [hnull, if_neg Bool.false_ne_true] at hget
    unfold ofRecord
    rw [hget]
    cases value <;> first | rfl | cases hnull
  · cases hvalue

theorem KeySchema.ofRecord_of_ofItem {recordKey : RecordKey} (haccepted : table.Accepted)
    (hread : Record.ofItem table item = .ok record)
    (hkey : table.keys.ofItem item = .ok recordKey) : table.keys.ofRecord record = .ok recordKey := by
  unfold ofItem at hkey
  unfold ofRecord
  obtain ⟨hash, hhash, hkey⟩ := bind_eq_ok_iff.mp hkey
  rw [KeyField.ofRecord_of_ofItem haccepted haccepted.hash hread hhash, ok_bind]
  cases hrange : table.keys.range with
  | none =>
    rw [hrange] at hkey
    exact hkey
  | some range =>
    rw [hrange] at hkey
    obtain ⟨value, hvalue, hdone⟩ := bind_eq_ok_iff.mp hkey
    cases hdone
    simp only
    rw [KeyField.ofRecord_of_ofItem haccepted (haccepted.range range hrange) hread hvalue]
    rfl

theorem TableSchema.RestoresKey.congr {other : Item} (hrestores : table.RestoresKey item)
    (hsame : ∀ name ∈ (KeyNames.ofSchema table.keys).attributes,
      Item.get? other name = Item.get? item name) : table.RestoresKey other := by
  obtain ⟨recordKey, key, hofItem, htoItem, hkey⟩ := hrestores
  refine ⟨recordKey, key, ?_, htoItem, (KeyNames.keyOf?_congr hsame).trans hkey⟩
  have hcomponent : ∀ component : KeyField,
      component.wireName ∈ (KeyNames.ofSchema table.keys).attributes →
      component.ofItem other = component.ofItem item := by
    intro component hmem
    rw [KeyField.ofItem, KeyField.ofItem, hsame _ hmem]
  rw [← hofItem, KeySchema.ofItem, KeySchema.ofItem, hcomponent _ List.mem_cons_self]
  cases hrange : table.keys.range with
  | none => rfl
  | some range =>
    simp only
    rw [hcomponent range (by simp [KeyNames.attributes, KeyNames.ofSchema, hrange])]

/-- Such an item is read as a record with its key. -/
theorem TableSchema.RestoresKey.keyItem (hrestores : table.RestoresKey item)
    (haccepted : table.Accepted) (hread : Record.ofItem table item = .ok record) :
    ∃ key, table.keyItem record = .ok key ∧
      (KeyNames.ofSchema table.keys).keyOf? item = some key := by
  obtain ⟨recordKey, key, hofItem, htoItem, hkey⟩ := hrestores
  refine ⟨key, ?_, hkey⟩
  rw [TableSchema.keyItem, KeySchema.ofRecord_of_ofItem haccepted hread hofItem]
  exact htoItem

end RecordStore
