import RecordStore.Proofs.Store.KeyedWrite
import RecordStore.Proofs.Store.Writing

/-!
# Reachable stores

Whatever calls a store receives, and whether they succeed or fail, its tables stay finite maps from
keys to items. Each write binds or unbinds one key, and a read answers what its key is bound to.
-/

namespace RecordStore

open Expression (Fault)

/-! ### What calls preserve -/

/-- What outlasts every call: it does not depend on the calls that are recorded or on the rounds that
remain, and no write under a key of a table puts an end to it. -/
structure Store.Outlasts (invariant : Store → Prop) : Prop where
  recorded : ∀ store calls, invariant store → invariant { store with calls }
  rounds : ∀ store unprocessedRounds, invariant store → invariant { store with unprocessedRounds }
  rebinds : ∀ {store : Store} {name : String} {table later : StoredTable}, invariant store →
    store.table? name = some table → table.Rebinds later → invariant (store.setTable name later)

namespace Store.Outlasts

variable {invariant : Store → Prop} (houtlasts : Outlasts invariant)
include houtlasts

theorem takeUnprocessedRound : Preserves invariant takeUnprocessedRound :=
  preserves_takeUnprocessedRound houtlasts.rounds

/-- Steps that do what a write under one key does preserve what outlasts such writes. -/
theorem write {α : Type} {name : String} {context : RequestContext} {write : KeyedWrite}
    {rebinding : StoredTable → α → Rebinding}
    {step : StoredTable → Except Fault (Outcome (StoredTable × α))}
    (hdescribes : write.Describes rebinding step) :
    Preserves invariant (Store.write name context step) := by
  apply preserves_write
  intro store table later result hstore htable hstep
  have hsame := hdescribes table
  rw [hstep] at hsame
  exact houtlasts.rebinds hstore htable (KeyedWrite.rebinds_of_step hsame)

theorem put {name : String} (context : RequestContext) (item : Item)
    (condition : Option String) (bindings : Expression.Bindings) :
    Preserves invariant
      (Store.write name context fun table => table.put item condition bindings) := by
  have hdescribes : (KeyedWrite.put name context item condition bindings).Describes _ _ :=
    describes_put item
  exact houtlasts.write hdescribes

theorem update {name : String} (context : RequestContext) (key : Item) (expression : String)
    (condition : Option String) (bindings : Expression.Bindings) :
    Preserves invariant (Store.write name context fun table =>
      table.update key expression condition bindings) := by
  have hdescribes : (KeyedWrite.update name context key expression condition bindings).Describes
      _ _ := describes_update key expression
  exact houtlasts.write hdescribes

theorem delete {name : String} (context : RequestContext) (key : Item)
    (condition : Option String) (bindings : Expression.Bindings) :
    Preserves invariant
      (Store.write name context fun table => table.delete key condition bindings) := by
  have hdescribes : (KeyedWrite.delete name context key condition bindings).Describes _ _ :=
    describes_delete key
  exact houtlasts.write hdescribes

theorem check {name : String} (context : RequestContext) (key : Item) (condition : String)
    (bindings : Expression.Bindings) :
    Preserves invariant
      (Store.write name context fun table => table.check key condition bindings) := by
  have hdescribes : (KeyedWrite.check name context key condition bindings).Describes _ _ :=
    describes_check key condition
  exact houtlasts.write hdescribes

/-! ### Calls on one table -/

theorem putItem (request : PutRequest) : Preserves invariant (putItem request) := by
  rw [putItem_eq]
  exact preserves_conditionalCall houtlasts.recorded (houtlasts.put _ _ _ _)

theorem updateItem (request : UpdateRequest) : Preserves invariant (updateItem request) := by
  cases hexpression : request.update with
  | none =>
    unfold Store.updateItem
    rw [hexpression]
    exact .throw _
  | some expression =>
    rw [updateItem_eq hexpression]
    exact preserves_conditionalCall houtlasts.recorded (houtlasts.update _ _ _ _ _)

theorem deleteItem (request : DeleteRequest) : Preserves invariant (deleteItem request) := by
  rw [deleteItem_eq]
  exact preserves_conditionalCall houtlasts.recorded (houtlasts.delete _ _ _ _)

theorem insert (table : String) (item : Item) : Preserves invariant (insert table item) :=
  (houtlasts.put _ _ _ _).bind fun _ => .pure _

/-! ### Calls on several tables -/

theorem batchWrite (requests : List (String × List BatchEntry)) (reportsCapacity : Bool) :
    Preserves invariant (batchWrite requests reportsCapacity) := by
  have hentries : ∀ name context entry, True →
      Preserves invariant (writeEntry name context entry) := fun _ _ _ _ =>
    preserves_writeEntry (fun _ _ => houtlasts.put _ _ _ _) fun _ _ => houtlasts.delete _ _ _ _
  exact (yields_batchWrite houtlasts.recorded houtlasts.takeUnprocessedRound hentries _
    fun _ _ _ _ => trivial).preserves

theorem transactWrite (actions : List (Option TransactAction)) :
    Preserves invariant (transactWrite actions) := by
  refine preserves_transactWrite houtlasts.recorded fun action context _ => ?_
  cases action with
  | put => exact (houtlasts.put _ _ _ _).bind fun _ => .pure _
  | update => exact (houtlasts.update _ _ _ _ _).bind fun _ => .pure _
  | delete => exact (houtlasts.delete _ _ _ _).bind fun _ => .pure _
  | check => exact (houtlasts.check _ _ _ _).bind fun _ => .pure _

end Store.Outlasts

/-! ### Sequences of calls -/

/-- A call on a store, or a setting of what it does next. -/
inductive StoreRequest where
  | insert (table : String) (item : Item)
  | getItem (request : GetRequest)
  | putItem (request : PutRequest)
  | updateItem (request : UpdateRequest)
  | deleteItem (request : DeleteRequest)
  | query (request : QueryRequest)
  | scan (request : ScanRequest)
  | batchGet (requests : List (String × BatchKeys)) (reportsCapacity : Bool)
  | batchWrite (requests : List (String × List BatchEntry)) (reportsCapacity : Bool)
  | transactGet (parts : List (Option TransactGet))
  | transactWrite (actions : List (Option TransactAction))
  | describeTable (name : String)
  | failUnprocessed (rounds : Nat)
  | clearCalls

namespace StoreRequest

/-- The call without its answer. -/
def make : StoreRequest → StoreCall Unit
  | insert table item => Store.insert table item
  | getItem request => do let _ ← Store.getItem request
  | putItem request => do let _ ← Store.putItem request
  | updateItem request => do let _ ← Store.updateItem request
  | deleteItem request => do let _ ← Store.deleteItem request
  | query request => do let _ ← Store.query request
  | scan request => do let _ ← Store.scan request
  | batchGet requests reportsCapacity => do let _ ← Store.batchGet requests reportsCapacity
  | batchWrite requests reportsCapacity => do let _ ← Store.batchWrite requests reportsCapacity
  | transactGet parts => do let _ ← Store.transactGet parts
  | transactWrite actions => Store.transactWrite actions
  | describeTable name => do let _ ← Store.describeTable name
  | failUnprocessed rounds => modify fun store => store.failUnprocessed rounds
  | clearCalls => modify Store.clearCalls

theorem preserves_make {invariant : Store → Prop} (houtlasts : Store.Outlasts invariant)
    (request : StoreRequest) : Preserves invariant request.make := by
  have hdone : ∀ {α : Type} {call : StoreCall α}, Preserves invariant call →
      Preserves invariant (do let _ ← call) :=
    fun hcall => hcall.bind fun _ => .pure _
  cases request with
  | insert table item => exact houtlasts.insert table item
  | getItem request => exact hdone (Store.preserves_getItem houtlasts.recorded request)
  | putItem request => exact hdone (houtlasts.putItem request)
  | updateItem request => exact hdone (houtlasts.updateItem request)
  | deleteItem request => exact hdone (houtlasts.deleteItem request)
  | query request => exact hdone (Store.preserves_query houtlasts.recorded request)
  | scan request => exact hdone (Store.preserves_scan houtlasts.recorded request)
  | batchGet requests reportsCapacity =>
    exact hdone (Store.preserves_batchGet houtlasts.recorded houtlasts.takeUnprocessedRound _ _)
  | batchWrite requests reportsCapacity => exact hdone (houtlasts.batchWrite _ _)
  | transactGet parts => exact hdone (Store.preserves_transactGet houtlasts.recorded parts)
  | transactWrite actions => exact houtlasts.transactWrite actions
  | describeTable name => exact hdone (Store.preserves_describeTable houtlasts.recorded name)
  | failUnprocessed rounds => exact .modify fun store hstore => houtlasts.rounds store rounds hstore
  | clearCalls => exact .modify fun store hstore => houtlasts.recorded store [] hstore

end StoreRequest

/-- The store is one that calls have made of an empty one. -/
inductive Store.Reachable (registry : Registry) (units : Int64) : Store → Prop where
  | empty : Reachable registry units (Store.empty registry units)
  | after {store : Store} (hstore : Reachable registry units store) (request : StoreRequest) :
    Reachable registry units (request.make.run.run store).2

/-- What holds of the empty tables and outlasts every call holds of every store that is reached. -/
theorem Store.Reachable.preserved {invariant : Store → Prop} {registry : Registry} {units : Int64}
    {store : Store} (houtlasts : Outlasts invariant) (hempty : invariant (Store.empty registry units))
    (hreachable : Reachable registry units store) : invariant store := by
  induction hreachable with
  | empty => exact hempty
  | after _ request ih => exact request.preserves_make houtlasts _ ih

/-! ### Maps -/

/-- Every table is a map. -/
def Store.Keyed (store : Store) : Prop :=
  ∀ entry ∈ store.tables, entry.2.Keyed

namespace Store

variable {store : Store}

theorem Keyed.table (hkeyed : store.Keyed) {name : String} {table : StoredTable}
    (htable : store.table? name = some table) : table.Keyed :=
  hkeyed _ (Entries.mem_of_find? htable)

theorem Keyed.setTable (hkeyed : store.Keyed) {table : StoredTable} (htable : table.Keyed)
    (name : String) : (store.setTable name table).Keyed := by
  intro entry hmem
  rcases Entries.mem_put hmem with rfl | hmem
  · exact htable
  · exact hkeyed entry hmem

theorem keyed_empty (registry : Registry) (units : Int64) : (empty registry units).Keyed := by
  intro entry hmem
  obtain ⟨table, _, rfl⟩ := List.mem_map.mp hmem
  exact ⟨fun item hnone => absurd hnone List.not_mem_nil, .nil⟩

theorem outlasts_keyed : Outlasts Keyed where
  recorded _ _ hkeyed := hkeyed
  rounds _ _ hkeyed := hkeyed
  rebinds hkeyed htable hrebinds := hkeyed.setTable ((hkeyed.table htable).rebinds hrebinds) _

theorem Reachable.keyed {registry : Registry} {units : Int64}
    (hreachable : Reachable registry units store) : store.Keyed :=
  hreachable.preserved outlasts_keyed (keyed_empty registry units)

end Store

end RecordStore
