import RecordStore.Entries

/-!
# JSON documents
-/

namespace RecordStore

/-- A JSON document. Whole numbers are exact; a number written with a fraction or an exponent, or
beyond 64 bits, is a double. -/
inductive Json where
  | null
  | boolean (value : Bool)
  | integer (value : Int)
  | float (value : Float)
  | string (text : String)
  | array (items : List Json)
  | object (members : List (String × Json))
  deriving Inhabited, Repr

namespace Json

mutual

/-- The document with the members of every object ascending by name, the last one of a repeated
name winning. -/
def normal : Json → Json
  | .array items => .array (normalItems items)
  | .object members => .object (Entries.sorted (normalMembers members))
  | json => json

def normalItems : List Json → List Json
  | [] => []
  | item :: items => item.normal :: normalItems items

def normalMembers : List (String × Json) → List (String × Json)
  | [] => []
  | (name, member) :: members => (name, member.normal) :: normalMembers members

end

end Json

end RecordStore
