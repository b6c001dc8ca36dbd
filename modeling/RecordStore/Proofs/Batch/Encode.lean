import RecordStore.Proofs.Batch.Round
import RecordStore.Proofs.Client.Write
import RecordStore.Proofs.Codec.Key
import RecordStore.Proofs.Schema.Registry

/-!
# Encoded batches

The writes of a batch are encoded one by one in the order given. When every put has its key, the
tables of a store take them all.
-/

namespace RecordStore

open Batch (requestsFor)

/-! ### Keys of puts -/

variable {table : TableSchema} {record original : Record} {item : Item}

/-- A record that has its key is stored under some key. -/
theorem Record.exists_keyOf?_toItem {recordKey : RecordKey} (haccepted : table.Accepted)
    (hfields : record.fields = original.fields) (hstore : record.toItem table = .ok item)
    (hread : table.keys.ofRecord original = .ok recordKey) :
    ∃ key, (KeyNames.ofSchema table.keys).keyOf? item = some key := by
  obtain ⟨hhash, hrange⟩ := KeySchema.ofRecord_ok hread
  apply KeyNames.exists_keyOf?
  intro name hname
  rcases List.mem_cons.mp hname with rfl | hname
  · obtain ⟨stored, _, hget⟩ :=
      KeyField.exists_get?_toItem haccepted haccepted.hash hfields hstore hhash
    exact ⟨stored, hget⟩
  · obtain ⟨component, hcomponent, rfl⟩ := Option.map_eq_some_iff.mp (Option.mem_toList.mp hname)
    obtain ⟨value, _, hvalue⟩ := hrange component hcomponent
    obtain ⟨stored, _, hget⟩ := KeyField.exists_get?_toItem haccepted
      (haccepted.range component hcomponent) hfields hstore hvalue
    exact ⟨stored, hget⟩

/-! ### Writes of one table -/

/-- What a write is encoded to fits the keys of its table. -/
theorem RecordWrite.fits_entry {write : RecordWrite} {entry : BatchEntry}
    (haccepted : table.Accepted) (hentry : write.entry table = .ok entry)
    (hkeyed : ∀ record, write = .put record → ∃ key, table.keys.ofRecord record = .ok key) :
    entry.Fits (.ofSchema table.keys) := by
  cases write with
  | put record =>
    obtain ⟨item, hitem, hdone⟩ := bind_eq_ok_iff.mp hentry
    cases hdone
    obtain ⟨recordKey, hread⟩ := hkeyed record rfl
    obtain ⟨key, hkey⟩ := Record.exists_keyOf?_toItem haccepted
      (PreparedPut.advance_fields table record true) hitem hread
    exact .put hkey
  | delete recordKey =>
    obtain ⟨key, hkey, hdone⟩ := bind_eq_ok_iff.mp hentry
    cases hdone
    exact .delete (KeySchema.keyOf?_toItem hkey)

/-- The store keeps every table of the registry. -/
def Store.Serves (store : Store) (registry : Registry) : Prop :=
  ∀ table ∈ registry.tables, ∃ stored, store.Holds table stored

theorem Store.holds_empty {registry : Registry} (htables : Registry.Tables registry.tables)
    (units : Int64) {table : TableSchema} (hmem : table ∈ registry.tables) :
    (Store.empty registry units).Holds table (emptyTable units table) := by
  refine ⟨?_, rfl⟩
  apply Entries.find?_of_mem
  · rw [Entries.names, Store.empty, List.map_map]
    exact htables.names
  · exact List.mem_map_of_mem hmem

theorem Store.serves_empty {registry : Registry} (htables : Registry.Tables registry.tables)
    (units : Int64) : (Store.empty registry units).Serves registry :=
  fun _ hmem => ⟨_, holds_empty htables units hmem⟩

namespace Client

variable {client : Client} {items : List (String × List RecordWrite)}
  {entries : List (String × BatchEntry)}

/-- The writes of a batch to one table, in the order given. -/
def writesOf (name : String) (items : List (String × List RecordWrite)) : List RecordWrite :=
  (items.filter fun entry => entry.1 = name).flatMap Prod.snd

/-- A write to a table is encoded to an entry. -/
def Encodes (client : Client) (name : String) (write : RecordWrite) (entry : BatchEntry) : Prop :=
  ∃ table, client.table name = .ok table ∧ write.entry table = .ok entry

/-- Every put of the batch has the fields of its key. -/
def Keyed (client : Client) (items : List (String × List RecordWrite)) : Prop :=
  ∀ name writes, (name, writes) ∈ items → ∀ record, .put record ∈ writes → ∀ table,
    client.table name = .ok table → ∃ key, table.keys.ofRecord record = .ok key

theorem encodes_of_mapM {name : String} {table : TableSchema} {writes : List RecordWrite}
    {encoded : List (String × BatchEntry)} (htable : client.table name = .ok table)
    (hencoded : (writes.mapM fun write => do return (name, ← write.entry table)) = .ok encoded) :
    (∀ request ∈ encoded, request.1 = name) ∧
      List.Forall₂ (client.Encodes name) writes (encoded.map Prod.snd) := by
  have hall := mapM_ok hencoded
  constructor
  · intro request hmem
    obtain ⟨write, _, hrequest⟩ := exists_mem_of_forall₂ hall request hmem
    obtain ⟨entry, _, hdone⟩ := bind_eq_ok_iff.mp hrequest
    cases hdone
    rfl
  · rw [List.forall₂_map_right_iff]
    refine hall.imp fun write request hrequest => ?_
    obtain ⟨entry, hentry, hdone⟩ := bind_eq_ok_iff.mp hrequest
    cases hdone
    exact ⟨table, htable, hentry⟩

/-- Encoding keeps the order of the writes to each table. -/
theorem encodes_requestsFor (hentries : client.batchEntries items = .ok entries) (name : String) :
    List.Forall₂ (client.Encodes name) (writesOf name items) (requestsFor name entries) := by
  obtain ⟨lists, hlists, hdone⟩ := bind_eq_ok_iff.mp hentries
  cases hdone
  have hall := mapM_ok hlists
  clear hlists hentries
  induction hall with
  | nil => exact .nil
  | @cons entry list items lists hfirst hrest ih =>
    obtain ⟨other, writes⟩ := entry
    obtain ⟨table, htable, hencoded⟩ := bind_eq_ok_iff.mp hfirst
    obtain ⟨hnames, hwrites⟩ := encodes_of_mapM htable hencoded
    rw [List.flatten_cons, Batch.requestsFor_append, writesOf, List.filter_cons]
    by_cases hname : other = name
    · subst hname
      rw [Batch.requestsFor_of_all hnames, if_pos (decide_eq_true rfl), List.flatMap_cons]
      exact List.rel_append hwrites ih
    · have hnone : requestsFor name list = [] := Batch.requestsFor_of_none fun request hmem =>
        hnames request hmem ▸ hname
      rw [hnone, if_neg (by simpa using hname), List.nil_append]
      exact ih

/-- The table of every entry takes it, when the puts have their keys. -/
theorem accepts_of_batchEntries {store : Store} (htables : Registry.Tables client.registry.tables)
    (hserves : store.Serves client.registry) (hkeyed : client.Keyed items)
    (hentries : client.batchEntries items = .ok entries) :
    ∀ request ∈ entries, Accepts store.tables request := by
  rintro ⟨name, entry⟩ hmem
  obtain ⟨write, hfound, table, htable, hentry⟩ := exists_mem_of_forall₂
    (encodes_requestsFor hentries name) entry (Batch.mem_requestsFor.mpr hmem)
  obtain ⟨⟨other, writes⟩, hfiltered, hwrite⟩ := List.mem_flatMap.mp hfound
  obtain ⟨hitem, hname⟩ := List.mem_filter.mp hfiltered
  obtain rfl : other = name := of_decide_eq_true hname
  have hmem : table ∈ client.registry.tables := Registry.mem_of_requireTable htable
  obtain ⟨stored, hholds⟩ := hserves table hmem
  refine ⟨stored, ?_, ?_⟩
  · rw [← Registry.name_of_requireTable htable]
    exact hholds.table?_eq
  · rw [hholds.keys_eq]
    refine RecordWrite.fits_entry (htables.accepted table hmem) hentry fun record hput => ?_
    exact hkeyed other writes hitem record (hput ▸ hwrite) table htable

end Client

end RecordStore
