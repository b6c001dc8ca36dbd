import RecordStore.Proofs.Batch.Fetch
import RecordStore.Proofs.Batch.Encode

/-!
# Requested keys

The keys of a batch are encoded first, and each of them is then read once, however often it was
requested.
-/

namespace RecordStore

open Batch (Grouped requestsFor)
open Entries (under)

/-! ### Distinct requests -/

theorem nodup_eraseDups {α : Type} [BEq α] [LawfulBEq α] (list : List α) : list.eraseDups.Nodup := by
  induction hlength : list.length using Nat.strongRecOn generalizing list with
  | ind length ih =>
    cases list with
    | nil => exact List.nodup_nil
    | cons first rest =>
      rw [List.eraseDups_cons, List.nodup_cons]
      constructor
      · intro hmem
        obtain ⟨_, hne⟩ := List.mem_filter.mp (List.mem_eraseDups.mp hmem)
        simp at hne
      · refine ih _ ?_ _ rfl
        rw [← hlength, List.length_cons, Nat.lt_succ_iff]
        exact List.length_filter_le _ _

theorem Entries.under_cons_of_fresh {α : Type} {group : String × List α}
    {rest : List (String × List α)} (hnames : (Entries.names (group :: rest)).Nodup)
    (name : String) : under (group :: rest) name = under [group] name ++ under rest name := by
  obtain ⟨hfresh, _⟩ := List.nodup_cons.mp hnames
  rw [Entries.under_cons, Entries.under_cons]
  split
  · rename_i hname
    have hnone : under rest name = [] := Entries.under_of_fresh fun entry hmem hsame =>
      hfresh (List.mem_map.mpr ⟨entry, hmem, hsame.trans hname.symm⟩)
    rw [hnone, List.append_nil]
  · rfl

namespace Batch

theorem nodup_requestsFor {α : Type} {requests : List (String × α)} (hrequests : requests.Nodup)
    (name : String) : (requestsFor name requests).Nodup := by
  refine (hrequests.filter _).map_on ?_
  rintro ⟨first, key⟩ hfirst ⟨second, other⟩ hsecond rfl
  have hfirstName : first = name := of_decide_eq_true (List.mem_filter.mp hfirst).2
  have hsecondName : second = name := of_decide_eq_true (List.mem_filter.mp hsecond).2
  rw [hfirstName, hsecondName]

/-- Keys that one call takes: not too many, and none of them twice for a table. -/
structure Allowed (groups : List (String × List Item)) : Prop extends Grouped groups where
  bounded : Entries.count groups ≤ maxBatchKeys
  once : ∀ group ∈ groups, group.2.Nodup

theorem Allowed.remaining {groups : List (String × List Item)} (hallowed : Allowed groups)
    (throttled : Bool) : Allowed (Batch.remaining throttled groups) where
  toGrouped := hallowed.toGrouped.remaining throttled
  bounded := Nat.le_trans (count_remaining_le throttled groups) hallowed.bounded
  once := by
    intro group hmem
    obtain ⟨_, whole, hwhole, _, hdrop⟩ := mem_remaining hmem
    rw [hdrop]
    exact (hallowed.once whole hwhole).sublist (List.drop_sublist _ _)

theorem allowed_byTable {run : List (String × Item)} (hrun : run.Nodup)
    (hlength : run.length ≤ maxBatchKeys) : Allowed (byTable run) where
  toGrouped := (gathers_byTable run).toGrouped
  bounded := by rw [(gathers_byTable run).count]; exact hlength
  once := by
    rintro ⟨name, keys⟩ hmem
    have hgathers := gathers_byTable run
    have hkeys : under (byTable run) name = keys := by
      rw [under, Entries.find?_of_mem hgathers.ascending.nodup hmem]
      rfl
    rw [← hkeys, hgathers.under]
    exact nodup_requestsFor hrun name

end Batch

/-! ### Encoded keys -/

namespace Client

variable {client : Client} {items : List (String × List RecordKey)} {keys : List (String × Item)}

/-- Whether a stored key is among those that a batch requests of a table. -/
def requests (table : TableSchema) (items : List (String × List RecordKey)) (key : Item) : Bool :=
  items.any fun entry => entry.1 = table.name &&
    entry.2.any fun recordKey => (table.keys.toItem recordKey).toOption = some key

theorem requests_iff {table : TableSchema} {key : Item} : requests table items key = true ↔
    ∃ entry ∈ items, entry.1 = table.name ∧
      ∃ recordKey ∈ entry.2, table.keys.toItem recordKey = .ok key := by
  have hencodes : ∀ recordKey, (table.keys.toItem recordKey).toOption = some key ↔
      table.keys.toItem recordKey = .ok key := by
    intro recordKey
    cases table.keys.toItem recordKey <;> simp [Except.toOption]
  simp [requests, hencodes]

theorem nodup_batchKeys (hkeys : client.batchKeys items = .ok keys) : keys.Nodup := by
  obtain ⟨lists, _, hdone⟩ := bind_eq_ok_iff.mp hkeys
  cases hdone
  exact nodup_eraseDups _

/-- The encoded keys of one table. -/
theorem mem_of_mapM_keys {name : String} {table : TableSchema} {wanted : List RecordKey}
    {encoded : List (String × Item)}
    (hencoded : (wanted.mapM fun key => do return (name, ← table.keys.toItem key)) = .ok encoded)
    (request : String × Item) : request ∈ encoded ↔
      request.1 = name ∧ ∃ recordKey ∈ wanted, table.keys.toItem recordKey = .ok request.2 := by
  have hall := mapM_ok hencoded
  clear hencoded
  induction hall with
  | nil => simp
  | @cons recordKey first wanted rest hfirst _ ih =>
    obtain ⟨key, hkey, hdone⟩ := bind_eq_ok_iff.mp hfirst
    cases hdone
    simp only [List.mem_cons, ih]
    constructor
    · rintro (rfl | ⟨hname, other, hmem, hother⟩)
      · exact ⟨rfl, recordKey, .inl rfl, hkey⟩
      · exact ⟨hname, other, .inr hmem, hother⟩
    · rintro ⟨hname, other, rfl | hmem, hother⟩
      · have hsame : key = request.2 := Except.ok.inj (hkey.symm.trans hother)
        exact .inl (Prod.ext hname hsame.symm)
      · exact .inr ⟨hname, other, hmem, hother⟩

/-- The keys that are read are those that are requested. -/
theorem mem_batchKeys (hkeys : client.batchKeys items = .ok keys) {name : String} {key : Item} :
    (name, key) ∈ keys ↔
      ∃ table, client.table name = .ok table ∧ requests table items key = true := by
  obtain ⟨lists, hlists, hdone⟩ := bind_eq_ok_iff.mp hkeys
  cases hdone
  have hall := mapM_ok hlists
  clear hlists hkeys
  simp only [requests_iff]
  rw [List.mem_eraseDups, List.mem_flatten]
  induction hall with
  | nil => simp
  | @cons entry encoded items lists hfirst _ ih =>
    obtain ⟨other, wanted⟩ := entry
    obtain ⟨table, htable, hencoded⟩ := bind_eq_ok_iff.mp hfirst
    have hname := Registry.name_of_requireTable htable
    simp only [List.exists_mem_cons_iff, ih, mem_of_mapM_keys hencoded]
    constructor
    · rintro (⟨rfl, hwanted⟩ | ⟨found, hfound, hrest⟩)
      · exact ⟨table, htable, .inl ⟨hname.symm, hwanted⟩⟩
      · exact ⟨found, hfound, .inr hrest⟩
    · rintro ⟨found, hfound, ⟨hother, hwanted⟩ | hrest⟩
      · have hsame : name = other := (Registry.name_of_requireTable hfound).symm.trans hother.symm
        rw [← hsame] at htable
        cases htable.symm.trans hfound
        exact .inl ⟨hsame, hwanted⟩
      · exact .inr ⟨found, hfound, hrest⟩

/-- The keys that are read of a table, each of them once. -/
theorem contains_requestsFor (hkeys : client.batchKeys items = .ok keys) {table : TableSchema}
    (htable : client.table table.name = .ok table) :
    (requestsFor table.name keys).contains = requests table items := by
  funext key
  rw [Bool.eq_iff_iff, List.contains_iff_mem, Batch.mem_requestsFor, mem_batchKeys hkeys]
  constructor
  · rintro ⟨found, hfound, hrequests⟩
    cases htable.symm.trans hfound
    exact hrequests
  · exact fun hrequests => ⟨table, htable, hrequests⟩

/-- A table of every name is there when the keys are encoded. -/
theorem exists_table_of_batchKeys (hkeys : client.batchKeys items = .ok keys) :
    ∀ name ∈ Entries.names items, ∃ table, client.table name = .ok table := by
  obtain ⟨lists, hlists, -⟩ := bind_eq_ok_iff.mp hkeys
  have hall := mapM_ok hlists
  clear hlists hkeys
  induction hall with
  | nil => simp [Entries.names]
  | @cons entry encoded items lists hfirst _ ih =>
    obtain ⟨table, htable, _⟩ := bind_eq_ok_iff.mp hfirst
    intro name hmem
    rcases List.mem_cons.mp hmem with rfl | hmem
    · exact ⟨table, htable⟩
    · exact ih name hmem

end Client

end RecordStore
