import RecordStore.Attribute.Basic
import RecordStore.Gzip.Member
import RecordStore.Interchange.Value

/-!
# Stored attributes as JSON

An attribute is an object with one member that names its kind. Bytes that are a gzip stream of text
are written as that text.
-/

namespace RecordStore.Interchange

open Reading

mutual

def readAttribute : Json → Reading Attribute
  | .object [("S", .string text)] => .ok (.string text)
  | .object [("N", .string text)] => .ok (.number text)
  | .object [("B", content)] => (bytes content).map .binary
  | .object [("GZ", .string text)] => .ok (.binary (Gzip.compress text.toByteArray.toList))
  | .object [("BOOL", .boolean value)] => .ok (.boolean value)
  | .object [("NULL", .boolean flag)] => .ok (.null flag)
  | .object [("M", .object members)] => do
    return .map (Item.ofEntries (← readAttributeEntries members))
  | .object [("L", .array items)] => (readAttributes items).map .list
  | .object [("SS", content)] => (list text content).map .stringSet
  | .object [("NS", content)] => (list text content).map .numberSet
  | .object [("BS", content)] => (list bytes content).map .binarySet
  | _ => .error "attribute expected"

def readAttributes : List Json → Reading (List Attribute)
  | [] => .ok []
  | item :: rest => do
    let item ← readAttribute item
    return item :: (← readAttributes rest)

def readAttributeEntries : List (String × Json) → Reading (List (String × Attribute))
  | [] => .ok []
  | (name, member) :: rest => do
    let value ← readAttribute member
    return (name, value) :: (← readAttributeEntries rest)

end

def readItem : Json → Reading Item
  | .object members => (readAttributeEntries members).map Item.ofEntries
  | _ => .error "item expected"

def readNames (json : Json) : Reading (List (String × String)) :=
  (entries text json).map Entries.sorted

def binaryJson (bytes : List UInt8) : Json :=
  match (Gzip.decompress? bytes).bind fun data => String.fromUTF8? data.toByteArray with
  | some text => .object [("GZ", .string text)]
  | none => .object [("B", .string (Text.hexText bytes))]

mutual

def attributeJson : Attribute → Json
  | .string text => .object [("S", .string text)]
  | .number text => .object [("N", .string text)]
  | .binary bytes => binaryJson bytes
  | .boolean value => .object [("BOOL", .boolean value)]
  | .null flag => .object [("NULL", .boolean flag)]
  | .map entries => .object [("M", .object (attributeMembers entries))]
  | .list items => .object [("L", .array (attributeJsons items))]
  | .stringSet members => .object [("SS", textsJson members)]
  | .numberSet members => .object [("NS", textsJson members)]
  | .binarySet members => .object [("BS", textsJson (members.map Text.hexText))]

def attributeJsons : List Attribute → List Json
  | [] => []
  | item :: rest => attributeJson item :: attributeJsons rest

def attributeMembers : List (String × Attribute) → List (String × Json)
  | [] => []
  | (name, value) :: rest => (name, attributeJson value) :: attributeMembers rest

end

def itemJson (item : Item) : Json :=
  .object (attributeMembers item)

def namesJson (names : List (String × String)) : Json :=
  .object (names.map fun (placeholder, name) => (placeholder, .string name))

end RecordStore.Interchange
