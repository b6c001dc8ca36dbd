import RecordStore.Error.Context
import RecordStore.Error.Fault
import RecordStore.Expression.Fault

/-!
# Errors

Every operation of the library fails with one of these. `message` leaves the request out, `text`
shows it.
-/

namespace RecordStore

inductive Error where
  | schema (fault : SchemaFault)
  /-- An item was stored at a schema version above the registered one. -/
  | unsupportedVersion (table : String) (stored supported : UInt32)
  /-- An existence, revision or version condition did not hold. -/
  | writeConflict (context : RequestContext)
  /-- The store refused the request as invalid. -/
  | invalidRequest (fault : Expression.Fault) (context : RequestContext)
  | unavailable (reason : String) (context : RequestContext)
  | internal (reason : String) (context : RequestContext)
  /-- A transaction was given up; there is one reason per action. -/
  | transactionCancelled (reasons : List String) (context : RequestContext)
  | tableNotFound (reason : String) (context : RequestContext)
  | contract (fault : ContractFault)
  | codec (fault : CodecFault)
  /-- A batch gave up with requests left over. -/
  | unprocessed (remaining attempts : Nat)

namespace Error

/-- A table that a store does not hold. -/
def missingTable (table : String) (context : RequestContext) : Error :=
  .tableNotFound ("ResourceNotFoundException: table `" ++ table ++ "` does not exist") context

def context? : Error → Option RequestContext
  | .writeConflict context => some context
  | .invalidRequest _ context => some context
  | .unavailable _ context => some context
  | .internal _ context => some context
  | .transactionCancelled _ context => some context
  | .tableNotFound _ context => some context
  | _ => none

def isWriteConflict : Error → Bool
  | .writeConflict _ => true
  | _ => false

/-- The error with a key added to its request, when the request has none. -/
def withKey (error : Error) (key : Item) : Error :=
  match error with
  | .writeConflict context => .writeConflict (context.withKey key)
  | .invalidRequest fault context => .invalidRequest fault (context.withKey key)
  | .unavailable reason context => .unavailable reason (context.withKey key)
  | .internal reason context => .internal reason (context.withKey key)
  | .transactionCancelled reasons context => .transactionCancelled reasons (context.withKey key)
  | .tableNotFound reason context => .tableNotFound reason (context.withKey key)
  | error => error

def message : Error → String
  | .schema fault => "invalid schema: " ++ fault.reason
  | .unsupportedVersion table stored supported =>
    "table `" ++ table ++ "` holds an item at schema version " ++ toString stored.toNat ++
      ", newer than supported version " ++ toString supported.toNat
  | .writeConflict _ => ""
  | .invalidRequest fault _ => fault.message
  | .unavailable reason _ => reason
  | .internal reason _ => reason
  | .transactionCancelled reasons _ => ",".intercalate reasons
  | .tableNotFound reason _ => reason
  | .contract fault => "contract violation: " ++ fault.reason
  | .codec fault => "codec error: " ++ fault.reason
  | .unprocessed remaining attempts =>
    toString remaining ++ " batch items still unprocessed after " ++ toString attempts ++
      " attempts"

private def inContext (reason : String) (context : RequestContext) : String :=
  reason ++ " (" ++ context.text ++ ")"

def text : Error → String
  | .writeConflict context => "write conflict on " ++ context.text
  | .invalidRequest fault context => inContext ("backend unavailable: " ++ fault.message) context
  | .unavailable reason context => inContext ("backend unavailable: " ++ reason) context
  | .internal reason context => inContext ("internal backend error: " ++ reason) context
  | .transactionCancelled reasons context =>
    inContext ("transaction cancelled: [" ++ ", ".intercalate (reasons.map Text.quote) ++ "]")
      context
  | .tableNotFound reason context => inContext ("table not found: " ++ reason) context
  | error => error.message

end Error

end RecordStore
