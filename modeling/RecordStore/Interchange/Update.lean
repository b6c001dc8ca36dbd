import RecordStore.Interchange.Condition
import RecordStore.Update.Mutation

/-!
# Updates as JSON

A change names its field and, where the field belongs to a nested object, the names that lead to
the object. Pending changes are written by field.
-/

namespace RecordStore.Interchange

open Reading

def readMutation (json : Json) : Reading Mutation := do
  match ← required text json "m" with
  | "set" => return .set (← required readValue json "v")
  | "remove" => return .remove
  | "inc" => return .increment (← required readNumber json "n")
  | "put_entry" => return .putEntry (← required text json "k") (← required readValue json "v")
  | "inc_entry" =>
    return .incrementEntry (← required text json "k") (← required readNumber json "n")
  | "del_entry" => return .deleteEntry (← required text json "k")
  | "add" => return .addElement (← required readValue json "v")
  | "del" => return .deleteElement (← required readValue json "v")
  | "append" => return .append (← required (list readValue) json "v")
  | "clear" => return .clear
  | "object" => return .enter
  | _ => throw "change expected"

def readFieldChange (json : Json) : Reading FieldChange := do
  return ⟨← defaulted (list text) [] json "at", ← required text json "f", ← readMutation json⟩

mutual

def fieldMutationJson : FieldMutation → Json
  | .scalar delta => .object [("scalar", scalarDeltaJson delta)]
  | .collection delta => collectionDeltaJson delta
  | .object base mutations =>
    .object [("object", .array (fieldMutationJsons mutations)), ("base", recordJson base)]

def fieldMutationJsons : List (String × FieldMutation) → List Json
  | [] => []
  | (name, mutation) :: rest =>
    .array [.string name, fieldMutationJson mutation] :: fieldMutationJsons rest

end

end RecordStore.Interchange
