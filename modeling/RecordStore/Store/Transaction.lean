import RecordStore.Store.Basic

/-!
# Transactions

A transaction applies all of its actions or none. Every action is tried on what the actions before
it have left; when the condition of one does not hold, the transaction is given up with one reason
per action.
-/

namespace RecordStore.Store

/-! ### Reading -/

def transactGetOne (context : RequestContext) (part : Option TransactGet) :
    StoreCall (Option Item) := do
  match part with
  | none => throw (.invalidRequest .noGet context)
  | some part =>
    let table ← requireTable part.table context
    let key ← checked context (table.exactKey part.key)
    checked context ((table.find? key).mapM fun item =>
      Expression.projectItem item part.projection ⟨part.names.getD [], []⟩)

/-- Reads items as of one moment, none where nothing is stored. -/
def transactGet (parts : List (Option TransactGet)) : StoreCall (List (Option Item)) := do
  let context := RequestContext.ofTables (parts.filterMap fun part =>
    part.map TransactGet.table)
  record .transactGetItems context.table parts.length
  parts.mapM (transactGetOne context)

/-! ### Writing -/

/-- Whether an action was applied. -/
def wasApplied {α : Type} : Outcome α → Bool
  | .applied _ => true
  | .rejected => false

/-- Tries one action and says whether its condition held. -/
def tryAction (context : RequestContext) : Option TransactAction → StoreCall Bool
  | none => throw (.invalidRequest .noAction context)
  | some (.put table item guard) => do
    return wasApplied (← write table context fun held =>
      held.put item guard.condition guard.bindings)
  | some (.update table key expression guard) => do
    return wasApplied (← write table context fun held =>
      held.update key expression guard.condition guard.bindings)
  | some (.delete table key guard) => do
    return wasApplied (← write table context fun held =>
      held.delete key guard.condition guard.bindings)
  | some (.check table key condition guard) => do
    return wasApplied (← write table context fun held =>
      held.check key condition guard.bindings)

/-- The reason that an action gives for giving up. -/
def actionReason (applied : Bool) : String :=
  if applied then "None" else "ConditionalCheckFailed"

/-- Runs a computation that keeps its changes to the store only if it succeeds. -/
def atomically {α : Type} (computation : StoreCall α) : StoreCall α := fun store =>
  match computation.run.run store with
  | (.ok result, changed) => (.ok result, changed)
  | (.error error, _) => (.error error, store)

/-- Tries the actions one after another and fails unless every condition held. -/
def tryActions (context : RequestContext) (actions : List (Option TransactAction)) :
    StoreCall Unit := do
  let applied ← actions.mapM (tryAction context)
  if !applied.all id then
    throw (.transactionCancelled (applied.map actionReason) context)

def transactWrite (actions : List (Option TransactAction)) : StoreCall Unit := do
  let context := RequestContext.ofTables (actions.filterMap fun action =>
    action.map TransactAction.table)
  record .transactWriteItems context.table actions.length
  atomically (tryActions context actions)

end RecordStore.Store
