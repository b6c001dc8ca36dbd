import RecordStore.Proofs.Outcome
import RecordStore.Store.Batch
import RecordStore.Store.Call
import RecordStore.Store.Transaction

/-!
# Reads of a store

A read does nothing to a store but to be recorded, and a batch of reads also uses up one of the
rounds that leave work unprocessed. What outlasts this outlasts every read, whether it succeeds or
fails.
-/

namespace RecordStore.Store

open Expression (Fault)

variable {invariant : Store → Prop}

theorem preserves_checked {α : Type} (context : RequestContext) (result : Except Fault α) :
    Preserves invariant (checked context result) := by
  cases result with
  | ok value => exact .pure value
  | error fault => exact .throw _

theorem yields_checked {α : Type} (context : RequestContext) (result : Except Fault α) :
    Yields invariant (fun value => result = .ok value) (checked context result) := by
  cases result with
  | ok value => exact .pure rfl
  | error fault => exact .throw _

theorem preserves_requireTable (name : String) (context : RequestContext) :
    Preserves invariant (requireTable name context) := by
  refine Preserves.get.bind fun store => ?_
  cases store.table? name with
  | some table => exact .pure table
  | none => exact .throw _

theorem preserves_batchGetTables (context : RequestContext) (throttled reportsCapacity : Bool)
    (requests : List (String × BatchKeys)) :
    Preserves invariant (batchGetTables context throttled reportsCapacity requests) := by
  induction requests with
  | nil => exact .pure _
  | cons request rest ih =>
    have hread : ∀ (table : StoredTable) (key : Item),
        Preserves invariant (readKey table context request.2 key) := fun _ _ =>
      (preserves_checked _ _).bind fun _ => preserves_checked _ _
    have hfirst : Preserves invariant
        (batchGetTable context throttled reportsCapacity request.1 request.2) :=
      (preserves_requireTable _ _).bind fun table =>
        (Preserves.mapM (hread table)).bind fun _ => .pure _
    exact hfirst.bind fun _ => ih.bind fun _ => .pure _

theorem preserves_transactGetOne (context : RequestContext) (part : Option TransactGet) :
    Preserves invariant (transactGetOne context part) := by
  cases part with
  | none => exact .throw _
  | some part =>
    exact (preserves_requireTable _ _).bind fun _ => (preserves_checked _ _).bind fun _ =>
      preserves_checked _ _

theorem preserves_takeUnprocessedRound
    (hrounds : ∀ store unprocessedRounds, invariant store → invariant { store with unprocessedRounds }) :
    Preserves invariant takeUnprocessedRound := by
  refine Preserves.get.bind fun store => ?_
  cases store.unprocessedRounds with
  | zero => exact .pure false
  | succ rounds => exact (Preserves.modify fun store => hrounds store rounds).bind fun _ => .pure true

/-! ### Recorded reads -/

section Recorded

variable (hrecorded : ∀ store calls, invariant store → invariant { store with calls })

include hrecorded

theorem preserves_record (operation : Operation) (table : String) (items : Nat) :
    Preserves invariant (record operation table items) :=
  .modify fun store => hrecorded store _

theorem preserves_getItem (request : GetRequest) : Preserves invariant (getItem request) :=
  (preserves_record hrecorded _ _ _).bind fun _ => (preserves_requireTable _ _).bind fun _ =>
    (preserves_checked _ _).bind fun _ => (preserves_checked _ _).bind fun _ => .pure _

theorem preserves_query (request : QueryRequest) : Preserves invariant (query request) :=
  (preserves_record hrecorded _ _ _).bind fun _ => (preserves_requireTable _ _).bind fun _ =>
    (preserves_checked _ _).bind fun _ => .pure _

theorem preserves_scan (request : ScanRequest) : Preserves invariant (scan request) :=
  (preserves_record hrecorded _ _ _).bind fun _ => (preserves_requireTable _ _).bind fun _ =>
    (preserves_checked _ _).bind fun _ => .pure _

theorem preserves_describeTable (name : String) : Preserves invariant (describeTable name) :=
  (preserves_record hrecorded _ _ _).bind fun _ => (preserves_requireTable _ _).bind fun _ => .pure _

theorem preserves_transactGet (parts : List (Option TransactGet)) :
    Preserves invariant (transactGet parts) :=
  (preserves_record hrecorded _ _ _).bind fun _ => .mapM (preserves_transactGetOne _)

theorem preserves_batchGet (hrounds : Preserves invariant takeUnprocessedRound)
    (requests : List (String × BatchKeys)) (reportsCapacity : Bool) :
    Preserves invariant (batchGet requests reportsCapacity) :=
  (preserves_record hrecorded _ _ _).bind fun _ => hrounds.bind fun _ =>
    preserves_batchGetTables _ _ _ _

end Recorded

end RecordStore.Store
