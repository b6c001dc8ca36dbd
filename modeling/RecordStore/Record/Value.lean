import RecordStore.Json.Basic
import RecordStore.Number

/-!
# Values and records

A record is an instance of a declared type: the fields that are set, in the order in which they
were set, and the revision at which the record was read. Maps keep the order of their entries and
sets the order of their elements, but equality ignores both.
-/

namespace RecordStore

inductive Value where
  | null
  | boolean (value : Bool)
  | number (number : Number)
  | string (text : String)
  | binary (bytes : List UInt8)
  | object (typeName : String) (fields : List (String × Value)) (revision : Int64)
  | list (items : List Value)
  | set (elements : List Value)
  | map (entries : List (String × Value))
  deriving Inhabited, Repr

structure Record where
  typeName : String
  fields : List (String × Value)
  /-- Zero for a record that was never stored. -/
  revision : Int64
  deriving Inhabited, Repr

/-- The shape of a value, named in messages. -/
inductive Shape where
  | null
  | boolean
  | number
  | string
  | binary
  | object
  | list
  | set
  | map
  deriving DecidableEq, Repr, Inhabited

def Shape.name : Shape → String
  | .null => "null"
  | .boolean => "boolean"
  | .number => "number"
  | .string => "string"
  | .binary => "binary"
  | .object => "object"
  | .list => "list"
  | .set => "set"
  | .map => "map"

namespace Value

def shape : Value → Shape
  | .null => .null
  | .boolean _ => .boolean
  | .number _ => .number
  | .string _ => .string
  | .binary _ => .binary
  | .object .. => .object
  | .list _ => .list
  | .set _ => .set
  | .map _ => .map

def isNull : Value → Bool
  | .null => true
  | _ => false

def record? : Value → Option Record
  | .object typeName fields revision => some ⟨typeName, fields, revision⟩
  | _ => none

/-- The elements of a list or a set. -/
def elements? : Value → Option (List Value)
  | .list items => some items
  | .set elements => some elements
  | _ => none

/-! ### Equality -/

mutual

/-- Equality up to the order of sets, maps and fields. -/
def same : Value → Value → Bool
  | .null, .null => true
  | .boolean left, .boolean right => left = right
  | .number left, .number right => left == right
  | .string left, .string right => left = right
  | .binary left, .binary right => left = right
  | .object leftType left leftRevision, .object rightType right rightRevision =>
    leftType = rightType && left.length = right.length && allHeld left right &&
      leftRevision = rightRevision
  | .list left, .list right => sameItems left right
  | .set left, .set right =>
    left.length = right.length && allAmong left right &&
      right.all fun element => hasElement left element
  | .map left, .map right => left.length = right.length && allHeld left right
  | _, _ => false

def sameItems : List Value → List Value → Bool
  | [], [] => true
  | left :: leftRest, right :: rightRest => left.same right && sameItems leftRest rightRest
  | _, _ => false

/-- Whether one of the elements equals the value. -/
def hasElement : List Value → Value → Bool
  | [], _ => false
  | element :: rest, value => element.same value || hasElement rest value

/-- Whether each of the elements equals one of the others. -/
def allAmong : List Value → List Value → Bool
  | [], _ => true
  | element :: rest, others => others.any (fun other => element.same other) && allAmong rest others

/-- Whether each of the entries is held under its name by the others. -/
def allHeld : List (String × Value) → List (String × Value) → Bool
  | [], _ => true
  | (name, value) :: rest, others =>
    (match Entries.find? others name with
      | some other => value.same other
      | none => false) && allHeld rest others

end

instance : BEq Value := ⟨same⟩

/-! ### JSON in the order held -/

mutual

def heldJson : Value → Json
  | .null => .null
  | .boolean value => .boolean value
  | .number (.integer value) => .integer value.toInt
  | .number (.float value) => .float value
  | .string text => .string text
  | .binary bytes => .array (bytes.map fun byte => .integer byte.toNat)
  | .object _ fields _ => .object (heldMembers fields)
  | .list items => .array (heldItems items)
  | .set elements => .array (heldItems elements)
  | .map entries => .object (heldMembers entries)

def heldItems : List Value → List Json
  | [] => []
  | item :: rest => item.heldJson :: heldItems rest

def heldMembers : List (String × Value) → List (String × Json)
  | [] => []
  | (name, value) :: rest => (name, value.heldJson) :: heldMembers rest

end

end Value

namespace Record

/-- A record without fields that was never stored. -/
def empty (typeName : String) : Record :=
  ⟨typeName, [], 0⟩

def get? (record : Record) (field : String) : Option Value :=
  Entries.find? record.fields field

/-- The record with a field set, or unset when the value is null. -/
def set (record : Record) (field : String) (value : Value) : Record :=
  { record with
    fields :=
      if value.isNull then Entries.erase record.fields field
      else Entries.put record.fields field value }

def toValue (record : Record) : Value :=
  .object record.typeName record.fields record.revision

def same (left right : Record) : Bool :=
  left.toValue == right.toValue

instance : BEq Record := ⟨same⟩

end Record

/-- The identity of a stored item. -/
structure RecordKey where
  hash : Value
  range : Option Value
  deriving Inhabited, Repr

end RecordStore
