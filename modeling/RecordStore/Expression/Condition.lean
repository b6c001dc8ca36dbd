import RecordStore.Expression.Alias
import RecordStore.Expression.Binding
import RecordStore.Expression.Path
import RecordStore.Expression.Token

/-!
# Conditions

Trees of tests on attributes, and their text as condition expressions. A group is put in parentheses
where it is part of another group and has more than one member.
-/

namespace RecordStore

/-- A test of one attribute. -/
inductive Test where
  | exists
  | absent
  | compare (operator : Comparator) (value : Value)
  | beginsWith (start : String)
  /-- Between two values, both included. -/
  | between (low high : Value)
  | contains (value : Value)
  | lacks (value : Value)
  | among (candidates : List Value)
  /-- The size of a text, of bytes or of a collection. -/
  | size (operator : Comparator) (count : UInt64)
  deriving Inhabited, Repr

/-- A tree of tests on attributes, which are named by paths of logical names. -/
inductive Condition where
  | leaf (path : String) (test : Test)
  | all (members : List Condition)
  | any (members : List Condition)
  | not (condition : Condition)
  deriving Inhabited, Repr

/-- Whether the test may be made of a range key. -/
def Test.isKeyTest : Test → Bool
  | .compare operator _ => operator ≠ .notEqual
  | .beginsWith _ | .between .. => true
  | _ => false

namespace Expression

/-- A computation that takes placeholders and may fail. -/
abbrev Rendering := ExceptT Error (StateM Aliases)

def bind (value : Value) : StateM Aliases String :=
  Aliases.value value.bound

end Expression

open Expression

/-- The text of a test on an aliased path. -/
def Test.render (path : String) : Test → Rendering String
  | .exists => return "attribute_exists(" ++ path ++ ")"
  | .absent => return "attribute_not_exists(" ++ path ++ ")"
  | .compare operator value => do
    return path ++ " " ++ operator.text ++ " " ++ (← bind value)
  | .beginsWith start => do
    return "begins_with(" ++ path ++ ", " ++ (← bind (.string start)) ++ ")"
  | .between low high => do
    let low ← bind low
    let high ← bind high
    return path ++ " BETWEEN " ++ low ++ " AND " ++ high
  | .contains value => do
    return "contains(" ++ path ++ ", " ++ (← bind value) ++ ")"
  | .lacks value => do
    return "NOT contains(" ++ path ++ ", " ++ (← bind value) ++ ")"
  | .among candidates => do
    if candidates.isEmpty then throw (.contract (.noCandidates path))
    let placeholders ← candidates.mapM fun candidate => (bind candidate : Rendering String)
    return path ++ " IN (" ++ ", ".intercalate placeholders ++ ")"
  | .size operator count => do
    let count ← Aliases.value (.number (toString count.toNat))
    return "size(" ++ path ++ ") " ++ operator.text ++ " " ++ count

namespace Condition

/-- Whether the condition joins two members or more. -/
def isComposite : Condition → Bool
  | .all members | .any members => members.length > 1
  | _ => false

mutual

def render (table : TableSchema) : Condition → Rendering String
  | .leaf path test => do
    let segments ← (table.resolvePath path : Except Error (List String))
    test.render (← Aliases.path segments)
  | .all members =>
    if members.isEmpty then throw (.contract .emptyGroup)
    else do return " AND ".intercalate (← renderMembers table members)
  | .any members =>
    if members.isEmpty then throw (.contract .emptyGroup)
    else do return " OR ".intercalate (← renderMembers table members)
  | .not condition => do return "NOT (" ++ (← render table condition) ++ ")"

def renderMembers (table : TableSchema) : List Condition → Rendering (List String)
  | [] => return []
  | member :: rest => do
    let text ← render table member
    let text := if member.isComposite then "(" ++ text ++ ")" else text
    return text :: (← renderMembers table rest)

end

/-- The text of a condition that stands beside others, joined by `AND`. -/
def renderTop (table : TableSchema) (condition : Condition) : Rendering String := do
  let text ← condition.render table
  match condition with
  | .any members => return if members.length > 1 then "(" ++ text ++ ")" else text
  | _ => return text

end Condition

end RecordStore
