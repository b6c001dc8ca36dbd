import RecordStore.Delta
import RecordStore.Expression.Condition
import RecordStore.Interchange.Value
import RecordStore.Schema.Description

/-!
# Types, conditions and deltas as JSON

A test is a word or an object with one member that names it; a condition is a tree of such objects.
-/

namespace RecordStore.Interchange

open Reading

def readElementType (json : Json) : Reading ElementType :=
  match Description.element? (.ofJson json) with
  | some element => .ok element
  | none => .error "element type expected"

def readKind (json : Json) : Reading Kind :=
  match Description.kind? (.ofJson json) with
  | some kind => .ok kind
  | none => .error "kind expected"

def readType (json : Json) : Reading ValueType := do
  return ⟨← defaulted readKind .scalar json "kind", ← optional readElementType json "element"⟩

def readComparator : Json → Reading Comparator
  | .string "=" => .ok .equal
  | .string "<>" => .ok .notEqual
  | .string "<" => .ok .less
  | .string "<=" => .ok .lessOrEqual
  | .string ">" => .ok .greater
  | .string ">=" => .ok .greaterOrEqual
  | _ => .error "comparator expected"

def readTest : Json → Reading Test
  | .string "exists" => .ok .exists
  | .string "not_exists" => .ok .absent
  | .object [("eq", content)] => (readValue content).map (.compare .equal)
  | .object [("ne", content)] => (readValue content).map (.compare .notEqual)
  | .object [("lt", content)] => (readValue content).map (.compare .less)
  | .object [("le", content)] => (readValue content).map (.compare .lessOrEqual)
  | .object [("gt", content)] => (readValue content).map (.compare .greater)
  | .object [("ge", content)] => (readValue content).map (.compare .greaterOrEqual)
  | .object [("contains", content)] => (readValue content).map .contains
  | .object [("not_contains", content)] => (readValue content).map .lacks
  | .object [("begins_with", content)] => (text content).map .beginsWith
  | .object [("between", content)] => do
    let (low, high) ← pair readValue readValue content
    return .between low high
  | .object [("in", content)] => (list readValue content).map .among
  | .object [("size", content)] => do
    let (operator, count) ← pair readComparator natural content
    return .size operator (UInt64.ofNat count)
  | _ => .error "test expected"

mutual

def readCondition : Json → Reading Condition
  | .object [("leaf", .array [.string path, content])] => (readTest content).map (.leaf path)
  | .object [("all", .array items)] => (readConditions items).map .all
  | .object [("any", .array items)] => (readConditions items).map .any
  | .object [("not", content)] => (readCondition content).map .not
  | _ => .error "condition expected"

def readConditions : List Json → Reading (List Condition)
  | [] => .ok []
  | item :: rest => do
    let item ← readCondition item
    return item :: (← readConditions rest)

end

/-! ### Deltas -/

def readScalarDelta (json : Json) : Reading ScalarDelta := do
  let set ← match json with
    | .object members => (Entries.find? members "set").mapM readValue
    | _ => throw "delta expected"
  return ⟨set, ← optional readNumber json "delta", ← defaulted flag false json "remove"⟩

def readMapDelta (json : Json) : Reading MapDelta := do
  let updates ← defaulted (list readEntry) [] json "updates"
  let amounts ← defaulted (list (pair text readNumber)) [] json "deltas"
  let deletes ← defaulted (list text) [] json "deletes"
  return ⟨putAll updates, putAll amounts, deletes.eraseDups, ← defaulted flag false json "clear"⟩

def readSetDelta (json : Json) : Reading SetDelta := do
  return ⟨← defaulted (list readValue) [] json "adds",
    ← defaulted (list readValue) [] json "deletes", ← defaulted flag false json "clear"⟩

def readListDelta (json : Json) : Reading ListDelta := do
  return ⟨← defaulted (list readValue) [] json "appends", ← defaulted flag false json "clear"⟩

def readCollectionDelta (kind : Kind) (json : Json) : Reading CollectionDelta :=
  match kind with
  | .map => (readMapDelta json).map .map
  | .set => (readSetDelta json).map .set
  | .list => (readListDelta json).map .list
  | .scalar => .error "collection expected"

def scalarDeltaJson (delta : ScalarDelta) : Json :=
  .object [("set", optionJson valueJson delta.set), ("delta", optionJson numberJson delta.amount),
    ("remove", .boolean delta.remove)]

def collectionDeltaJson : CollectionDelta → Json
  | .map delta => .object [("map", .object [
      ("updates", .array (entryJsons delta.updates)),
      ("deltas", .array (delta.amounts.map fun (name, amount) =>
        .array [.string name, numberJson amount])),
      ("deletes", textsJson delta.deletes), ("clear", .boolean delta.clear)])]
  | .set delta => .object [("set", .object [("adds", .array (valueJsons delta.adds)),
      ("deletes", .array (valueJsons delta.deletes)), ("clear", .boolean delta.clear)])]
  | .list delta => .object [("list", .object [("appends", .array (valueJsons delta.appends)),
      ("clear", .boolean delta.clear)])]

end RecordStore.Interchange
