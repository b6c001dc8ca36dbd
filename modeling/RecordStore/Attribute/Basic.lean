import RecordStore.Entries

/-!
# Stored attributes

An item is a set of named attributes, with the names ascending, so that items with the same
attributes are equal. Numbers are stored as text.
-/

namespace RecordStore

inductive Attribute where
  | string (text : String)
  | number (text : String)
  | binary (bytes : List UInt8)
  | boolean (value : Bool)
  | null (flag : Bool)
  | map (entries : List (String × Attribute))
  | list (items : List Attribute)
  | stringSet (members : List String)
  | numberSet (members : List String)
  | binarySet (members : List (List UInt8))
  deriving Inhabited, Repr

abbrev Item := List (String × Attribute)

namespace Attribute

mutual

/-- Whether two attributes are the same; numbers are compared by their text. -/
def same : Attribute → Attribute → Bool
  | .string left, .string right => left = right
  | .number left, .number right => left = right
  | .binary left, .binary right => left = right
  | .boolean left, .boolean right => left = right
  | .null left, .null right => left = right
  | .map left, .map right => sameEntries left right
  | .list left, .list right => sameItems left right
  | .stringSet left, .stringSet right => left = right
  | .numberSet left, .numberSet right => left = right
  | .binarySet left, .binarySet right => left = right
  | _, _ => false

def sameEntries : List (String × Attribute) → List (String × Attribute) → Bool
  | [], [] => true
  | (leftName, left) :: leftRest, (rightName, right) :: rightRest =>
    leftName = rightName && left.same right && sameEntries leftRest rightRest
  | _, _ => false

def sameItems : List Attribute → List Attribute → Bool
  | [], [] => true
  | left :: leftRest, right :: rightRest => left.same right && sameItems leftRest rightRest
  | _, _ => false

end

mutual

theorem same_iff : ∀ left right : Attribute, left.same right = true ↔ left = right
  | .string _, right => by cases right <;> simp [same]
  | .number _, right => by cases right <;> simp [same]
  | .binary _, right => by cases right <;> simp [same]
  | .boolean _, right => by cases right <;> simp [same]
  | .null _, right => by cases right <;> simp [same]
  | .map left, right => by cases right <;> simp [same, sameEntries_iff left]
  | .list left, right => by cases right <;> simp [same, sameItems_iff left]
  | .stringSet _, right => by cases right <;> simp [same]
  | .numberSet _, right => by cases right <;> simp [same]
  | .binarySet _, right => by cases right <;> simp [same]

theorem sameEntries_iff :
    ∀ left right : List (String × Attribute), sameEntries left right = true ↔ left = right
  | [], right => by cases right <;> simp [sameEntries]
  | (_, left) :: leftRest, right => by
    match right with
    | [] => simp [sameEntries]
    | (_, right) :: rightRest =>
      simp [sameEntries, same_iff left right, sameEntries_iff leftRest rightRest, and_assoc]

theorem sameItems_iff :
    ∀ left right : List Attribute, sameItems left right = true ↔ left = right
  | [], right => by cases right <;> simp [sameItems]
  | left :: leftRest, right => by
    match right with
    | [] => simp [sameItems]
    | right :: rightRest =>
      simp [sameItems, same_iff left right, sameItems_iff leftRest rightRest]

end

instance : DecidableEq Attribute := fun left right => decidable_of_iff _ (same_iff left right)

end Attribute

namespace Item

def get? (item : Item) (name : String) : Option Attribute :=
  Entries.find? item name

/-- The item with an attribute set. -/
def set (item : Item) (name : String) (value : Attribute) : Item :=
  Entries.insert item name value

def erase (item : Item) (name : String) : Item :=
  Entries.erase item name

def ofEntries (entries : List (String × Attribute)) : Item :=
  Entries.sorted entries

end Item

end RecordStore
