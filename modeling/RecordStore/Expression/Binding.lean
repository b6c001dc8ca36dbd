import RecordStore.Attribute.Basic
import RecordStore.Record.Value

/-!
# Values bound in conditions

The values of conditions are stored by their own shape, without a declared type. Objects are stored
as maps by the logical names of their fields.
-/

namespace RecordStore.Value

mutual

def bound : Value → Attribute
  | .null => .null true
  | .boolean value => .boolean value
  | .number value => .number value.text
  | .string text => .string text
  | .binary bytes => .binary bytes
  | .object _ fields _ => .map (Entries.sorted (boundEntries fields))
  | .list items => .list (boundItems items)
  | .set elements => .list (boundItems elements)
  | .map entries => .map (Entries.sorted (boundEntries entries))

def boundItems : List Value → List Attribute
  | [] => []
  | item :: rest => item.bound :: boundItems rest

def boundEntries : List (String × Value) → List (String × Attribute)
  | [] => []
  | (name, value) :: rest => (name, value.bound) :: boundEntries rest

end

end RecordStore.Value
