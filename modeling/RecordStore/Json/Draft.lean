import RecordStore.Json.Basic

/-!
# Drafts of JSON documents

A draft is JSON text of which only the grammar has been judged. Some of its parts may stand for
nothing that a document can hold; whoever reads the whole of it must refuse them, and whoever looks
for certain members may pass over the rest.
-/

namespace RecordStore.Json

/-- A document as it was written, the names and values without a meaning kept in their places. -/
inductive Draft where
  /-- Text with half of a surrogate pair, a number beyond all doubles, or an array or an object
  that lies too deep. -/
  | unreadable
  | null
  | boolean (value : Bool)
  | integer (value : Int)
  | float (value : Float)
  | string (text : String)
  | array (items : List Draft)
  | object (members : List (Option String × Draft))
  deriving Inhabited, Repr

namespace Draft

def ofText? : Option String → Draft
  | some text => .string text
  | none => .unreadable

def ofFloat? : Option Float → Draft
  | some value => .float value
  | none => .unreadable

mutual

/-- The document, none when a part of the draft is unreadable. -/
def toJson? : Draft → Option Json
  | .unreadable => none
  | .null => some .null
  | .boolean value => some (.boolean value)
  | .integer value => some (.integer value)
  | .float value => some (.float value)
  | .string text => some (.string text)
  | .array items => (itemsToJson? items).map .array
  | .object members => (membersToJson? members).map .object

def itemsToJson? : List Draft → Option (List Json)
  | [] => some []
  | item :: items => do return (← item.toJson?) :: (← itemsToJson? items)

def membersToJson? : List (Option String × Draft) → Option (List (String × Json))
  | [] => some []
  | (name, member) :: members => do
    return (← name, ← member.toJson?) :: (← membersToJson? members)

end

mutual

/-- The draft in which every part of a document is readable. -/
def ofJson : Json → Draft
  | .null => .null
  | .boolean value => .boolean value
  | .integer value => .integer value
  | .float value => .float value
  | .string text => .string text
  | .array items => .array (itemsOfJson items)
  | .object members => .object (membersOfJson members)

def itemsOfJson : List Json → List Draft
  | [] => []
  | item :: items => ofJson item :: itemsOfJson items

def membersOfJson : List (String × Json) → List (Option String × Draft)
  | [] => []
  | (name, member) :: members => (some name, ofJson member) :: membersOfJson members

end

mutual

/-- Nothing of a document is lost in its draft. -/
theorem toJson?_ofJson (json : Json) : (ofJson json).toJson? = some json := by
  cases json with
  | array items => simp [ofJson, toJson?, itemsToJson?_itemsOfJson items]
  | object members => simp [ofJson, toJson?, membersToJson?_membersOfJson members]
  | _ => simp [ofJson, toJson?]

theorem itemsToJson?_itemsOfJson (items : List Json) :
    itemsToJson? (itemsOfJson items) = some items := by
  cases items with
  | nil => simp [itemsOfJson, itemsToJson?]
  | cons item items =>
    simp [itemsOfJson, itemsToJson?, toJson?_ofJson item, itemsToJson?_itemsOfJson items]

theorem membersToJson?_membersOfJson (members : List (String × Json)) :
    membersToJson? (membersOfJson members) = some members := by
  match members with
  | [] => simp [membersOfJson, membersToJson?]
  | (name, member) :: members =>
    simp [membersOfJson, membersToJson?, toJson?_ofJson member,
      membersToJson?_membersOfJson members]

end

/-! ### Members -/

/-- The members of an object under their names, none when a name is unreadable. -/
def named? (members : List (Option String × Draft)) : Option (List (String × Draft)) :=
  members.mapM fun (name, member) => name.map fun name => (name, member)

end Draft

end RecordStore.Json
