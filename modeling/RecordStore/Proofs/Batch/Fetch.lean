import RecordStore.Proofs.Batch.Round
import RecordStore.Proofs.Client.Call
import RecordStore.Proofs.Store.Contents
import RecordStore.Proofs.Store.Reading

/-!
# Batches of keys

A batch call answers, for each table, what the table binds to the keys of its round, in the order of
the keys. The keys that a throttled round leaves are answered in their order, so that the rounds of a
batch together read every key once.
-/

namespace RecordStore

open Batch (Grouped)

/-! ### What a table binds to keys -/

theorem StoredTable.run_readKey {store : Store} {stored : StoredTable} {key : Item}
    (hwhole : stored.keys.keyOf? key = some key) (context : RequestContext) (keys : List Item) :
    (Store.readKey stored context ⟨keys, none, none⟩ key).run.run store =
      (.ok (stored.contents key), store) := by
  rw [Store.readKey, exactKey_of_keyOf? hwhole,
    run_bind_of_ok (show (Store.checked context (.ok key)).run.run store = (.ok key, store) from rfl),
    find?_eq_contents hwhole]
  cases stored.contents key <;> rfl

/-- The items that are bound to distinct keys are those of the table that have one of the keys. -/
theorem StoredTable.Keyed.perm_contents {stored : StoredTable} (hkeyed : stored.Keyed)
    {keys : List Item} (hkeys : keys.Nodup) :
    (keys.filterMap stored.contents).Perm
      (stored.items.filter fun item => (stored.keys.keyOf? item).any keys.contains) := by
  have hitems : stored.items.Nodup :=
    hkeyed.distinct.imp fun hdiffers hsame => hdiffers (congrArg stored.keys.keyOf? hsame)
  have hfound : (keys.filterMap stored.contents).Nodup := by
    refine hkeys.filterMap fun first second item hfirst hsecond => ?_
    exact Option.some.inj ((keyOf?_of_contents hfirst).symm.trans (keyOf?_of_contents hsecond))
  refine (List.perm_ext_iff_of_nodup hfound (hitems.filter _)).mpr fun item => ?_
  rw [List.mem_filterMap, List.mem_filter, Option.any_eq_true]
  constructor
  · rintro ⟨key, hkey, hbound⟩
    obtain ⟨hmem, hheld⟩ := hkeyed.contents_eq_some_iff.mp hbound
    exact ⟨hmem, key, hheld, List.contains_iff_mem.mpr hkey⟩
  · rintro ⟨hmem, key, hheld, hkey⟩
    exact ⟨key, List.contains_iff_mem.mp hkey, hkeyed.contents_eq_some_iff.mpr ⟨hmem, hheld⟩⟩

namespace Store

variable {store ready middle later : Store} {groups : List (String × List Item)}

/-- What a table of the store binds to a key. -/
def bound (store : Store) (name : String) (key : Item) : Option Item :=
  (store.table? name).bind fun stored => stored.contents key

/-- Every group of keys is for a table, and its keys are whole. -/
def Answers (store : Store) (groups : List (String × List Item)) : Prop :=
  ∀ group ∈ groups, ∃ stored, store.table? group.1 = some stored ∧
    ∀ key ∈ group.2, stored.keys.keyOf? key = some key

/-- The items under some keys, by table. -/
def found (store : Store) (groups : List (String × List Item)) : List (String × List Item) :=
  groups.map fun group => (group.1, group.2.filterMap (store.bound group.1))

/-- The request for the whole items under some keys. -/
def keyRequests (groups : List (String × List Item)) : List (String × BatchKeys) :=
  groups.map fun group => (group.1, ⟨group.2, none, none⟩)

theorem names_keyRequests (groups : List (String × List Item)) :
    Entries.names (keyRequests groups) = Entries.names groups := by
  simp [keyRequests, Entries.names]

theorem map_keyRequests (groups : List (String × List Item)) :
    (keyRequests groups).map (fun (table, request) => (table, request.keys)) = groups := by
  rw [keyRequests, List.map_map]
  exact List.map_id groups

/-- How a batch call for keys is recorded. -/
def fetchCall (groups : List (String × List Item)) : Call :=
  ⟨.batchGetItem, (RequestContext.ofTables (Entries.names groups)).table, Entries.count groups⟩

/-! ### One call -/

theorem run_batchGetTable (context : RequestContext) (throttled : Bool) {name : String}
    {keys : List Item} {stored : StoredTable} (htable : store.table? name = some stored)
    (hwhole : ∀ key ∈ keys, stored.keys.keyOf? key = some key) :
    ∃ capacities, (batchGetTable context throttled true name ⟨keys, none, none⟩).run.run store =
      (.ok ⟨[(name, (keys.take (processedCount throttled keys.length)).filterMap (store.bound name))],
        leftOver name (keys.drop (processedCount throttled keys.length)) (⟨·, none, none⟩),
        capacities⟩, store) := by
  have hbound : store.bound name = stored.contents := by
    funext key
    rw [bound, htable]
    rfl
  have hread : ∀ wanted : List Item, (∀ key ∈ wanted, stored.keys.keyOf? key = some key) →
      (wanted.mapM (readKey stored context ⟨keys, none, none⟩)).run.run store =
        (.ok (wanted.map stored.contents), store) := by
    intro wanted
    induction wanted with
    | nil => exact fun _ => rfl
    | cons key rest ih =>
      intro hall
      rw [List.mapM_cons,
        run_bind_of_ok (StoredTable.run_readKey (hall key List.mem_cons_self) context keys),
        run_bind_of_ok (ih fun other hmem => hall other (List.mem_cons_of_mem _ hmem))]
      rfl
  refine ⟨(capacity true name (processedCount throttled keys.length)).toList, ?_⟩
  rw [batchGetTable, run_bind_of_ok (run_requireTable context htable),
    run_bind_of_ok (hread _ fun key hmem => hwhole key (List.mem_of_mem_take hmem)), hbound]
  simp only [List.filterMap_map, Function.id_comp]
  rfl

theorem run_batchGetTables (context : RequestContext) (throttled : Bool)
    (hanswers : store.Answers groups) :
    ∃ capacities, (batchGetTables context throttled true (keyRequests groups)).run.run store =
      (.ok ⟨store.found (Batch.handled throttled groups),
        keyRequests (Batch.remaining throttled groups), capacities⟩, store) := by
  induction groups with
  | nil => exact ⟨[], rfl⟩
  | cons group rest ih =>
    obtain ⟨name, keys⟩ := group
    obtain ⟨stored, htable, hwhole⟩ := hanswers (name, keys) List.mem_cons_self
    obtain ⟨firstCapacities, hfirst⟩ := run_batchGetTable context throttled htable hwhole
    obtain ⟨otherCapacities, hothers⟩ :=
      ih fun group hmem => hanswers group (List.mem_cons_of_mem _ hmem)
    have hleft : leftOver name (keys.drop (processedCount throttled keys.length))
          (⟨·, none, none⟩) ++ keyRequests (Batch.remaining throttled rest) =
        keyRequests (Batch.remaining throttled ((name, keys) :: rest)) := by
      unfold keyRequests Batch.remaining
      rw [List.flatMap_cons, List.map_append]
      congr 1
      unfold leftOver
      split <;> rfl
    refine ⟨firstCapacities ++ otherCapacities, ?_⟩
    change (batchGetTables context throttled true
      ((name, ⟨keys, none, none⟩) :: keyRequests rest)).run.run store = _
    rw [batchGetTables, run_bind_of_ok hfirst, run_bind_of_ok hothers, ← hleft]
    rfl

/-- A batch call answers the keys of its round and leaves the others. -/
theorem run_batchGet (hanswers : store.Answers groups) :
    ∃ capacities, (batchGet (keyRequests groups) true).run.run store =
      (.ok ⟨store.found (Batch.handled store.throttles groups),
          keyRequests (Batch.remaining store.throttles groups), capacities⟩,
        ⟨store.tables, store.calls ++ [fetchCall groups], store.unprocessedRounds - 1⟩) := by
  have hrecord : (record .batchGetItem (RequestContext.ofTables (Entries.names groups)).table
      (Entries.count groups)).run.run store =
        (.ok (), { store with calls := store.calls ++ [fetchCall groups] }) := rfl
  have htake := run_takeUnprocessedRound { store with calls := store.calls ++ [fetchCall groups] }
  obtain ⟨capacities, hread⟩ := @run_batchGetTables
    ⟨store.tables, store.calls ++ [fetchCall groups], store.unprocessedRounds - 1⟩ groups
    (.ofTables (Entries.names groups)) store.throttles hanswers
  refine ⟨capacities, ?_⟩
  rw [batchGet, names_keyRequests, map_keyRequests, run_bind_of_ok hrecord, run_bind_of_ok htake]
  exact hread

/-! ### Successive calls -/

/-- The store was called for groups of keys, one after another, and apart from that to describe
tables at most. -/
inductive Fetched : List (List (String × List Item)) → Store → Store → Prop where
  | done {store later : Store} (hdescribed : store.Described later) : Fetched [] store later
  | call {groups : List (String × List Item)} {rest : List (List (String × List Item))}
    {store ready middle later : Store} {answer : BatchGetAnswer} (hdescribed : store.Described ready)
    (hcall : (batchGet (keyRequests groups) true).run.run ready = (.ok answer, middle))
    (hrest : Fetched rest middle later) : Fetched (groups :: rest) store later

/-- The batches of keys that the store was called for, in order. -/
def fetches (store : Store) : List Call :=
  store.calls.filter fun call => call.operation = .batchGetItem

theorem Described.fetches_eq (hdescribed : store.Described later) :
    later.fetches = store.fetches :=
  hdescribed.filter_calls fun call hcall => by rw [hcall]; decide

/-- A batch call is recorded whatever comes of it. -/
theorem fetches_batchGet (store : Store) (groups : List (String × List Item)) :
    ((batchGet (keyRequests groups) true).run.run store).2.fetches =
      store.fetches ++ [fetchCall groups] := by
  have hrecord : (record .batchGetItem (RequestContext.ofTables (Entries.names groups)).table
      (Entries.count groups)).run.run store =
        (.ok (), { store with calls := store.calls ++ [fetchCall groups] }) := rfl
  have hrest : Preserves (fun later : Store => later.calls = store.calls ++ [fetchCall groups]) (do
      let throttled ← takeUnprocessedRound
      batchGetTables (.ofTables (Entries.names groups)) throttled true (keyRequests groups)) :=
    (preserves_takeUnprocessedRound fun _ _ hcalls => hcalls).bind fun _ =>
      preserves_batchGetTables _ _ _ _
  rw [batchGet, names_keyRequests, map_keyRequests, run_bind_of_ok hrecord, fetches,
    hrest { store with calls := store.calls ++ [fetchCall groups] } rfl]
  exact List.filter_append ..

namespace Fetched

variable {calls more : List (List (String × List Item))}

theorem of_described (hdescribed : store.Described middle) (hfetched : Fetched calls middle later) :
    Fetched calls store later := by
  cases hfetched with
  | done hrest => exact .done (hdescribed.trans hrest)
  | call hready hcall hrest => exact .call (hdescribed.trans hready) hcall hrest

theorem trans (hfirst : Fetched calls store middle) (hsecond : Fetched more middle later) :
    Fetched (calls ++ more) store later := by
  induction hfirst with
  | done hdescribed => exact hsecond.of_described hdescribed
  | call hdescribed hcall _ ih => exact .call hdescribed hcall (ih hsecond)

/-- Each of the calls is recorded, and no other batch of keys. -/
theorem fetches_eq (hfetched : Fetched calls store later) :
    later.fetches = store.fetches ++ calls.map fetchCall := by
  induction hfetched with
  | done hdescribed => rw [hdescribed.fetches_eq, List.map_nil, List.append_nil]
  | @call groups rest store ready middle later answer hdescribed hcall _ ih =>
    have hrecorded := fetches_batchGet ready groups
    rw [hcall, hdescribed.fetches_eq] at hrecorded
    rw [ih, hrecorded, List.append_assoc, List.map_cons, List.singleton_append]

end Fetched

end Store

end RecordStore
