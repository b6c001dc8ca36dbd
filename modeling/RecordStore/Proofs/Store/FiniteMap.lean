import RecordStore.Proofs.Store.Reachable

/-!
# Calls on the maps of tables

In every reachable store a write rebinds the key that it names and no other one, or changes nothing,
and a read answers what its key is bound to.
-/

namespace RecordStore

open Expression (projectItem)

/-! ### The writes that calls make -/

def PutRequest.keyedWrite (request : PutRequest) : KeyedWrite :=
  .put request.table (Store.writeContext request.table none none request.guard) request.item
    request.guard.condition request.guard.bindings

def UpdateRequest.keyedWrite (request : UpdateRequest) (expression : String) : KeyedWrite :=
  .update request.table (Store.writeContext request.table request.key (some expression) request.guard)
    (request.key.getD []) expression request.guard.condition request.guard.bindings

def DeleteRequest.keyedWrite (request : DeleteRequest) : KeyedWrite :=
  .delete request.table (Store.writeContext request.table request.key none request.guard)
    (request.key.getD []) request.guard.condition request.guard.bindings

/-- The write of a batch entry, which must be either a put or a delete. -/
def BatchEntry.keyedWrite? (entry : BatchEntry) (name : String) (context : RequestContext) :
    Option KeyedWrite :=
  match entry.put, entry.delete with
  | some item, none => some (.put name context item none .none)
  | none, some key => some (.delete name context key none .none)
  | _, _ => none

def TransactAction.keyedWrite (context : RequestContext) : TransactAction → KeyedWrite
  | .put table item guard => .put table context item guard.condition guard.bindings
  | .update table key expression guard =>
    .update table context key expression guard.condition guard.bindings
  | .delete table key guard => .delete table context key guard.condition guard.bindings
  | .check table key condition guard => .check table context key condition guard.bindings

/-- A call that answers the old item when it is asked to, or the new one. -/
def WriteOptions.answer (options : WriteOptions) (write : KeyedWrite)
    (new : Rebinding → Option Item) : Outcome Rebinding → Except Error ItemAnswer
  | .applied rebinding =>
    .ok ⟨options.returned.select rebinding.found (new rebinding),
      Store.capacity options.reportsCapacity write.table 1⟩
  | .rejected => .error (.writeConflict write.context)

namespace Store

variable {store : Store}

theorem ends_insert (hkeyed : store.Keyed) (table : String) (item : Item) :
    (KeyedWrite.put table (.ofTable table) item none .none).Ends (fun _ => .ok ()) store
      ((insert table item).run.run store) := by
  have hruns : (KeyedWrite.put table (.ofTable table) item none .none).Runs (fun _ => .ok ()) store
      ((insert table item).run.run store) :=
    KeyedWrite.runs_write (describes_put item) fun _ _ _ => rfl
  exact hruns.ends fun _ => hkeyed.table

theorem ends_putItem (hkeyed : store.Keyed) (request : PutRequest) :
    request.keyedWrite.Ends (request.options.answer request.keyedWrite fun _ => none) store
      ((putItem request).run.run store) := by
  apply KeyedWrite.ends_recorded .putItem (fun _ => hkeyed.table) (describes_put request.item)
  intro table outcome state
  cases outcome <;> rfl

theorem ends_updateItem (hkeyed : store.Keyed) {request : UpdateRequest} {expression : String}
    (hexpression : request.update = some expression) :
    (request.keyedWrite expression).Ends
      (request.options.answer (request.keyedWrite expression) Rebinding.left) store
      ((updateItem request).run.run store) := by
  unfold updateItem
  rw [hexpression]
  apply KeyedWrite.ends_recorded .updateItem (fun _ => hkeyed.table)
    (describes_update (request.key.getD []) expression)
  intro table outcome state
  cases outcome <;> rfl

theorem ends_deleteItem (hkeyed : store.Keyed) (request : DeleteRequest) :
    request.keyedWrite.Ends (request.options.answer request.keyedWrite fun _ => none) store
      ((deleteItem request).run.run store) := by
  apply KeyedWrite.ends_recorded .deleteItem (fun _ => hkeyed.table)
    (describes_delete (request.key.getD []))
  intro table outcome state
  cases outcome <;> rfl

theorem ends_writeEntry (hkeyed : store.Keyed) {name : String} {context : RequestContext}
    {entry : BatchEntry} {write : KeyedWrite} (hwrite : entry.keyedWrite? name context = some write) :
    write.Ends (fun _ => .ok ()) store ((writeEntry name context entry).run.run store) := by
  have hruns : write.Runs (fun _ => .ok ()) store
      ((writeEntry name context entry).run.run store) := by
    obtain ⟨put, delete⟩ := entry
    cases put with
    | some item =>
      cases delete with
      | some key => cases hwrite
      | none =>
        cases hwrite
        exact KeyedWrite.runs_write (describes_put item) fun _ _ _ => rfl
    | none =>
      cases delete with
      | some key =>
        cases hwrite
        exact KeyedWrite.runs_write (describes_delete key) fun _ _ _ => rfl
      | none => cases hwrite
  exact hruns.ends fun _ => hkeyed.table

theorem runs_tryAction (store : Store) (context : RequestContext) (action : TransactAction) :
    (action.keyedWrite context).Runs (fun outcome => .ok (wasApplied outcome)) store
      ((tryAction context (some action)).run.run store) := by
  cases action with
  | put table item guard =>
    apply KeyedWrite.runs_write (describes_put item)
    intro held outcome state
    cases outcome <;> rfl
  | update table key expression guard =>
    apply KeyedWrite.runs_write (describes_update key expression)
    intro held outcome state
    cases outcome <;> rfl
  | delete table key guard =>
    apply KeyedWrite.runs_write (describes_delete key)
    intro held outcome state
    cases outcome <;> rfl
  | check table key condition guard =>
    apply KeyedWrite.runs_write (describes_check key condition)
    intro held outcome state
    cases outcome <;> rfl

end Store

/-! ### Reads -/

/-- How a get ends: it answers the projected binding of its key, and no table changes. -/
inductive GetRequest.Ends (request : GetRequest) (store : Store) :
    Except Error ItemAnswer × Store → Prop where
  | found {table : StoredTable} {key : Item} {item : Option Item}
    (htable : store.table? request.table = some table)
    (hkey : table.exactKey (request.key.getD []) = .ok key)
    (hitem : ((table.contents key).mapM fun item =>
      projectItem item request.projection ⟨request.names.getD [], []⟩) = .ok item) :
    Ends request store (.ok ⟨item, Store.capacity request.reportsCapacity request.table 1⟩,
      store.recorded .getItem request.table)
  | wrongKey {table : StoredTable} {fault : Expression.Fault}
    (htable : store.table? request.table = some table)
    (hkey : table.exactKey (request.key.getD []) = .error fault) :
    Ends request store (.error (.invalidRequest fault (Store.getContext request)),
      store.recorded .getItem request.table)
  | unprojected {table : StoredTable} {key item : Item} {fault : Expression.Fault}
    (htable : store.table? request.table = some table)
    (hkey : table.exactKey (request.key.getD []) = .ok key)
    (hbound : table.contents key = some item)
    (hitem : projectItem item request.projection ⟨request.names.getD [], []⟩ = .error fault) :
    Ends request store (.error (.invalidRequest fault (Store.getContext request)),
      store.recorded .getItem request.table)
  | missing (hmissing : store.table? request.table = none) :
    Ends request store (.error (.missingTable request.table (Store.getContext request)),
      store.recorded .getItem request.table)

namespace Store

theorem ends_getItem (store : Store) (request : GetRequest) :
    request.Ends store ((getItem request).run.run store) := by
  have hrecord : (record .getItem request.table 1).run.run store =
      (.ok (), store.recorded .getItem request.table) := rfl
  unfold getItem
  rw [run_bind_of_ok hrecord]
  cases htable : store.table? request.table with
  | none =>
    have hmissing := (table?_recorded store .getItem request.table request.table).trans htable
    rw [run_bind_of_error (run_requireTable_of_missing _ hmissing)]
    exact .missing htable
  | some table =>
    have hheld := (table?_recorded store .getItem request.table request.table).trans htable
    rw [run_bind_of_ok (run_requireTable _ hheld)]
    cases hkey : table.exactKey (request.key.getD []) with
    | error fault =>
      rw [run_bind_of_error (run_checked _ _ _)]
      exact .wrongKey htable hkey
    | ok key =>
      rw [run_bind_of_ok (run_checked _ _ _)]
      have hwhole := KeyNames.keyOf?_self (StoredTable.exactKey_ok hkey)
      have hread := run_checked (getContext request) ((table.contents key).mapM fun item =>
        projectItem item request.projection ⟨request.names.getD [], []⟩)
        (store.recorded .getItem request.table)
      rw [StoredTable.find?_eq_contents hwhole]
      cases hbound : table.contents key with
      | none =>
        rw [hbound] at hread
        rw [run_bind_of_ok hread]
        exact .found htable hkey (by rw [hbound]; rfl)
      | some item =>
        rw [hbound] at hread
        cases hitem : projectItem item request.projection ⟨request.names.getD [], []⟩ with
        | error fault =>
          rw [Option.mapM_some, hitem] at hread
          rw [Option.mapM_some, hitem, run_bind_of_error hread]
          exact .unprojected htable hkey hbound hitem
        | ok shown =>
          rw [Option.mapM_some, hitem] at hread
          rw [Option.mapM_some, hitem, run_bind_of_ok hread]
          exact .found htable hkey (by rw [hbound, Option.mapM_some, hitem]; rfl)

end Store

/-! ### Stores as maps -/

/-- The tables of a store are maps from keys to items, and calls on the store are calls on the
maps. -/
structure Store.RefinesMaps (store : Store) : Prop where
  /-- Every item has all attributes of its key, and no two items have the same key. -/
  keyed : ∀ name table, (name, table) ∈ store.tables → table.Keyed
  contents : ∀ name table, (name, table) ∈ store.tables → ∀ key item,
    table.contents key = some item ↔ item ∈ table.items ∧ table.keys.keyOf? item = some key
  insert : ∀ table item, (KeyedWrite.put table (.ofTable table) item none .none).Ends
    (fun _ => .ok ()) store ((insert table item).run.run store)
  put : ∀ request : PutRequest, request.keyedWrite.Ends
    (request.options.answer request.keyedWrite fun _ => none) store
    ((putItem request).run.run store)
  update : ∀ (request : UpdateRequest) (expression : String), request.update = some expression →
    (request.keyedWrite expression).Ends
      (request.options.answer (request.keyedWrite expression) Rebinding.left) store
      ((updateItem request).run.run store)
  delete : ∀ request : DeleteRequest, request.keyedWrite.Ends
    (request.options.answer request.keyedWrite fun _ => none) store
    ((deleteItem request).run.run store)
  entry : ∀ name context (entry : BatchEntry) write, entry.keyedWrite? name context = some write →
    write.Ends (fun _ => .ok ()) store ((writeEntry name context entry).run.run store)
  action : ∀ context (action : TransactAction), (action.keyedWrite context).Ends
    (fun outcome => .ok (wasApplied outcome)) store
    ((tryAction context (some action)).run.run store)
  get : ∀ request : GetRequest, request.Ends store ((getItem request).run.run store)
  item? : ∀ name table key, store.table? name = some table →
    table.keys.keyOf? key = some key → store.item? name key = table.contents key

/-- Whatever calls have been made, the store is one of maps. -/
theorem Store.Reachable.refinesMaps {registry : Registry} {units : Int64} {store : Store}
    (hreachable : Reachable registry units store) : store.RefinesMaps := by
  have hkeyed := hreachable.keyed
  exact {
    keyed := fun name table hmem => hkeyed (name, table) hmem
    contents := fun name table hmem key item => (hkeyed (name, table) hmem).contents_eq_some_iff
    insert := ends_insert hkeyed
    put := ends_putItem hkeyed
    update := fun request expression => ends_updateItem hkeyed
    delete := ends_deleteItem hkeyed
    entry := fun name context entry write => ends_writeEntry hkeyed
    action := fun context action => (runs_tryAction store context action).ends fun _ => hkeyed.table
    get := ends_getItem store
    item? := fun name table key htable hwhole =>
      (item?_eq htable).trans (StoredTable.find?_eq_contents hwhole) }

/-- A table of books. -/
def bookTable : TableSchema :=
  { (default : TableSchema) with name := "books", keys := ⟨⟨"id", "id", .string⟩, none⟩ }

def bookOf (title : String) : Item :=
  [("id", .string "a"), ("title", .string title)]

/-- The library has lost the first book and put another in its place. -/
def replacedBook : Store :=
  ((StoreRequest.putItem ⟨"books", bookOf "second", ⟨none, none, none⟩, ⟨.old, false⟩⟩).make.run.run
    ((StoreRequest.insert "books" (bookOf "first")).make.run.run
      (Store.empty ⟨[bookTable], []⟩ 1)).2).2

theorem Store.Reachable.refinesMaps_books :
    Reachable ⟨[bookTable], []⟩ 1 replacedBook ∧ replacedBook.items "books" = [bookOf "second"] ∧
      replacedBook.RefinesMaps := by
  have hreachable : Reachable ⟨[bookTable], []⟩ 1 replacedBook := .after (.after .empty _) _
  exact ⟨hreachable, by decide +kernel, hreachable.refinesMaps⟩

end RecordStore
