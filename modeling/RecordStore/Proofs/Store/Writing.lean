import RecordStore.Proofs.Store.Reading
import RecordStore.Proofs.Store.Table

/-!
# Writes of a store

A call that writes is recorded and takes its steps on tables one after another. What outlasts the
steps outlasts the call, whether it succeeds or fails.
-/

namespace RecordStore.Store

open Expression (Fault)

variable {invariant : Store → Prop}

/-- A step keeps an invariant where every table that it makes may take the place of the old one. -/
theorem preserves_write {α : Type} {name : String} {context : RequestContext}
    {step : StoredTable → Except Fault (Outcome (StoredTable × α))}
    (hstep : ∀ store table later result, invariant store → store.table? name = some table →
      step table = .ok (.applied (later, result)) → invariant (store.setTable name later)) :
    Preserves invariant (write name context step) := by
  intro store hstore
  cases htable : store.table? name with
  | none =>
    rw [run_write_of_missing context htable step]
    exact hstore
  | some table =>
    rw [run_write context htable step]
    cases houtcome : step table with
    | error fault => exact hstore
    | ok outcome =>
      cases outcome with
      | rejected => exact hstore
      | applied made => exact hstep store table made.1 made.2 hstore htable houtcome

theorem preserves_writeEntry {name : String} {context : RequestContext} {entry : BatchEntry}
    (hput : ∀ item, entry.put = some item → Preserves invariant
      (write name context fun table => table.put item none .none))
    (hdelete : ∀ key, entry.delete = some key → Preserves invariant
      (write name context fun table => table.delete key none .none)) :
    Preserves invariant (writeEntry name context entry) := by
  unfold writeEntry
  split
  · rename_i item hitem _
    exact (hput item hitem).bind fun _ => .pure _
  · rename_i key _ hkey
    exact (hdelete key hkey).bind fun _ => .pure _
  · exact .throw _

/-- A batch leaves unprocessed only what it was asked for. -/
theorem yields_batchWriteTables {property : String → BatchEntry → Prop} {context : RequestContext}
    (hentries : ∀ name entry, property name entry →
      Preserves invariant (writeEntry name context entry))
    (throttled reportsCapacity : Bool) {requests : List (String × List BatchEntry)}
    (hrequests : ∀ request ∈ requests, ∀ entry ∈ request.2, property request.1 entry) :
    Yields invariant
      (fun answer => ∀ request ∈ answer.unprocessed, ∀ entry ∈ request.2, property request.1 entry)
      (batchWriteTables context throttled reportsCapacity requests) := by
  induction requests with
  | nil => exact .pure (by simp)
  | cons request rest ih =>
    obtain ⟨name, entries⟩ := request
    have hfirst := hrequests (name, entries) List.mem_cons_self
    have hmade : Yields invariant (fun answer => ∀ request ∈ answer.unprocessed,
        ∀ entry ∈ request.2, property request.1 entry)
        (batchWriteTable context throttled reportsCapacity name entries) := by
      refine (Yields.of_preserves (preserves_requireTable _ _)).bind fun _ _ => ?_
      refine (Yields.of_preserves (Preserves.forM_mem fun entry hmem =>
        hentries name entry (hfirst entry (List.mem_of_mem_take hmem)))).bind fun _ _ => .pure ?_
      intro left hleft entry hentry
      unfold leftOver at hleft
      split at hleft
      · cases hleft
      · cases List.mem_singleton.mp hleft
        exact hfirst entry (List.mem_of_mem_drop hentry)
    refine hmade.bind fun first hleft => ?_
    refine (ih fun other hmem => hrequests other (List.mem_cons_of_mem _ hmem)).bind
      fun others hothers => .pure fun request hmem => ?_
    exact (List.mem_append.mp hmem).elim (hleft request) (hothers request)

theorem preserves_atomically {α : Type} {computation : StoreCall α}
    (hcomputation : Preserves invariant computation) :
    Preserves invariant (atomically computation) := by
  intro store hstore
  have hchanged := hcomputation store hstore
  change invariant (atomically computation store).2
  unfold atomically
  rcases hrun : computation.run.run store with ⟨_ | _, changed⟩
  · exact hstore
  · rw [hrun] at hchanged
    exact hchanged

/-! ### Recorded writes -/

section Recorded

variable (hrecorded : ∀ store calls, invariant store → invariant { store with calls })
include hrecorded

/-- A call under a condition is recorded, and takes one step. -/
theorem preserves_conditionalCall {α : Type} {operation : Operation} {name : String}
    {context : RequestContext}
    {step : StoredTable → Except Fault (Outcome (StoredTable × α))} {answer : α → ItemAnswer}
    (hwrite : Preserves invariant (write name context step)) :
    Preserves invariant (conditionalCall operation name context step answer) := by
  refine (preserves_record hrecorded _ _ _).bind fun _ => hwrite.bind fun outcome => ?_
  cases outcome with
  | applied result => exact .pure _
  | rejected => exact .throw _

theorem yields_batchWrite {property : String → BatchEntry → Prop}
    (hrounds : Preserves invariant takeUnprocessedRound)
    (hentries : ∀ name context entry, property name entry →
      Preserves invariant (writeEntry name context entry))
    {requests : List (String × List BatchEntry)} (reportsCapacity : Bool)
    (hrequests : ∀ request ∈ requests, ∀ entry ∈ request.2, property request.1 entry) :
    Yields invariant
      (fun answer => ∀ request ∈ answer.unprocessed, ∀ entry ∈ request.2, property request.1 entry)
      (batchWrite requests reportsCapacity) :=
  (Yields.of_preserves (preserves_record hrecorded _ _ _)).bind fun _ _ =>
    (Yields.of_preserves hrounds).bind fun _ _ =>
      yields_batchWriteTables (fun name entry => hentries name _ entry) _ _ hrequests

theorem preserves_transactWrite {actions : List (Option TransactAction)}
    (hactions : ∀ action context, some action ∈ actions →
      Preserves invariant (tryAction context (some action))) :
    Preserves invariant (transactWrite actions) := by
  refine (preserves_record hrecorded _ _ _).bind fun _ => preserves_atomically ?_
  refine (Preserves.mapM_mem fun action hmem => ?_).bind fun applied => ?_
  · cases action with
    | none => exact .throw _
    | some action => exact hactions action _ hmem
  · split
    · exact .throw _
    · exact .pure _

end Recorded

end RecordStore.Store
