import RecordStore.Attribute.Basic
import RecordStore.Number

/-!
# Comparing attributes

Scalars of one kind are ordered, numbers by their value. Sets are equal whatever the order of their
members, and numbers within them are compared by value too.
-/

namespace RecordStore

namespace Text

/-- Whether a text occurs within another. -/
def occursIn (part : List Char) : List Char → Bool
  | [] => part.isEmpty
  | character :: rest => part.isPrefixOf (character :: rest) || occursIn part rest

end Text

namespace Attribute

/-- Whether two stored numbers are equal, by their text when they cannot be read. -/
def equalNumbers (left right : String) : Bool :=
  match Number.parse? left, Number.parse? right with
  | some left, some right => left == right
  | _, _ => left = right

/-- The order of two scalars of the same kind. -/
def compare? : Attribute → Attribute → Option Ordering
  | .string left, .string right => some (compareOfLessAndEq left right)
  | .number left, .number right => do
    let left ← Number.parse? left
    let right ← Number.parse? right
    left.compare? right
  | .binary left, .binary right => some (compareOfLessAndEq left right)
  | _, _ => none

/-- Whether two lists of the same length have the same members. -/
def sameMembers {α : Type} (equal : α → α → Bool) (left right : List α) : Bool :=
  left.length = right.length && left.all fun member => right.any (equal member)

mutual

def equal : Attribute → Attribute → Bool
  | .stringSet left, .stringSet right => sameMembers (· = ·) left right
  | .numberSet left, .numberSet right => sameMembers equalNumbers left right
  | .binarySet left, .binarySet right => sameMembers (· = ·) left right
  | .list left, .list right => equalItems left right
  | .map left, .map right => left.length = right.length && equalEntries left right
  | left, right =>
    match left.compare? right with
    | some order => order = .eq
    | none => left = right

def equalItems : List Attribute → List Attribute → Bool
  | [], [] => true
  | left :: leftRest, right :: rightRest => equal left right && equalItems leftRest rightRest
  | _, _ => false

/-- Whether each of the entries has an equal one under its name. -/
def equalEntries : List (String × Attribute) → List (String × Attribute) → Bool
  | [], _ => true
  | (name, value) :: rest, others =>
    (match Entries.find? others name with
      | some other => equal value other
      | none => false) && equalEntries rest others

end

/-- Whether a text contains another one, or a collection an element. -/
def contains : Attribute → Attribute → Bool
  | .string text, .string part => Text.occursIn part.toList text.toList
  | .stringSet members, .string member => members.contains member
  | .numberSet members, .number member => members.any fun other => equalNumbers other member
  | .binarySet members, .binary member => members.contains member
  | .list items, item => items.any fun other => equal other item
  | _, _ => false

def beginsWith : Attribute → Attribute → Bool
  | .string text, .string start => start.toList.isPrefixOf text.toList
  | .binary bytes, .binary start => start.isPrefixOf bytes
  | _, _ => false

/-- The number of bytes of a text, or of members of a collection. -/
def size? : Attribute → Option Nat
  | .string text => some text.utf8ByteSize
  | .binary bytes => some bytes.length
  | .stringSet members => some members.length
  | .numberSet members => some members.length
  | .binarySet members => some members.length
  | .list items => some items.length
  | .map entries => some entries.length
  | _ => none

end Attribute

end RecordStore
