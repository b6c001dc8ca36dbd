import RecordStore.Expression.Builder
import RecordStore.Interchange.Attribute

/-!
# Errors and requests as JSON

An error is written as its kind and message, with what was asked of the store where it knows it.
-/

namespace RecordStore.Interchange

open Reading

def readContext (json : Json) : Reading RequestContext := do
  return ⟨← defaulted text "" json "table", ← optional readItem json "key",
    ← optional text json "update", ← optional text json "condition",
    ← optional readNames json "names", ← optional readItem json "values"⟩

def contextJson (context : RequestContext) : Json :=
  partsJson [("table", some (.string context.table)), ("key", context.key.map itemJson),
    ("update", context.update.map .string), ("condition", context.condition.map .string),
    ("names", context.names.map namesJson), ("values", context.values.map itemJson)]

/-- The kind of an error. A request that the store refuses as invalid counts as one that it could
not serve. -/
def errorKind : Error → String
  | .schema _ => "SchemaValidation"
  | .unsupportedVersion .. => "UnsupportedSchemaVersion"
  | .writeConflict _ => "WriteConflict"
  | .invalidRequest .. => "BackendUnavailable"
  | .unavailable .. => "BackendUnavailable"
  | .internal .. => "InternalBackend"
  | .transactionCancelled .. => "TransactionCancelled"
  | .tableNotFound .. => "TableNotFound"
  | .contract _ => "ContractViolation"
  | .codec _ => "Codec"
  | .unprocessed .. => "UnprocessedItems"

def errorJson (error : Error) : Json :=
  partsJson [("error", some (.string (errorKind error))), ("message", some (.string error.message)),
    ("context", error.context?.map contextJson)]

def outcomeJson {α : Type} (write : α → Json) : Except Error α → Json
  | .ok value => .object [("ok", write value)]
  | .error error => errorJson error

def doneJson : Except Error Unit → Json :=
  outcomeJson fun _ => .null

def compiledJson (compiled : Expression.Compiled) : Json :=
  partsJson [("update", compiled.update.map .string),
    ("condition", compiled.condition.map .string),
    ("key_condition", compiled.keyCondition.map .string),
    ("projection", compiled.projection.map .string), ("names", compiled.names.map namesJson),
    ("values", compiled.values.map itemJson)]

end RecordStore.Interchange
