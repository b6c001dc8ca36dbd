import RecordStore.Decimal.Reading
import RecordStore.Json.Basic
import RecordStore.Text.Hexadecimal

/-!
# Reading documents

The values and requests of the library have a JSON form in which they are exchanged. Reading one
fails with what was expected instead. A member that is null counts as left out where it may be.
-/

namespace RecordStore

abbrev Reading := Except String

namespace Reading

def text : Json → Reading String
  | .string text => .ok text
  | _ => .error "text expected"

def flag : Json → Reading Bool
  | .boolean value => .ok value
  | _ => .error "flag expected"

def integer : Json → Reading Int
  | .integer value => .ok value
  | _ => .error "integer expected"

def natural (json : Json) : Reading Nat :=
  (integer json).map Int.toNat

def float (json : Json) : Reading Float := do
  match Decimal.readFloat? (← text json) with
  | some value => return value
  | none => throw "decimal text expected"

/-- Bytes are written as hexadecimal digits. -/
def bytes (json : Json) : Reading (List UInt8) := do
  match Text.hexBytes? (← text json).toList with
  | some value => return value
  | none => throw "hexadecimal text expected"

def list {α : Type} (item : Json → Reading α) : Json → Reading (List α)
  | .array items => items.mapM item
  | _ => .error "list expected"

def pair {α β : Type} (first : Json → Reading α) (second : Json → Reading β) :
    Json → Reading (α × β)
  | .array [left, right] => do return (← first left, ← second right)
  | _ => .error "pair expected"

/-- The entries of an object whose members all have one form. -/
def entries {α : Type} (member : Json → Reading α) : Json → Reading (List (String × α))
  | .object members => members.mapM fun (name, json) => do return (name, ← member json)
  | _ => .error "object expected"

def member? (json : Json) (name : String) : Option Json :=
  match json with
  | .object members =>
    match Entries.find? members name with
    | some .null => none
    | found => found
  | _ => none

def required {α : Type} (read : Json → Reading α) (json : Json) (name : String) : Reading α :=
  match json with
  | .object members =>
    match Entries.find? members name with
    | some found => read found
    | none => .error ("member expected: " ++ name)
  | _ => .error "object expected"

def optional {α : Type} (read : Json → Reading α) (json : Json) (name : String) :
    Reading (Option α) :=
  match member? json name with
  | some found => (read found).map some
  | none => .ok none

def defaulted {α : Type} (read : Json → Reading α) (otherwise : α) (json : Json) (name : String) :
    Reading α :=
  match member? json name with
  | some found => read found
  | none => .ok otherwise

end Reading

end RecordStore
