import RecordStore.Attribute.Basic
import RecordStore.Text.Hexadecimal
import RecordStore.Text.Quoted

/-!
# Attributes in messages

The text by which messages show a stored attribute, its kind followed by its content.
-/

namespace RecordStore

private def blobText (bytes : List UInt8) : String :=
  "Blob \x7b inner: " ++ Text.hexText bytes ++ " \x7d"

private def bracketed (texts : List String) : String :=
  "[" ++ ", ".intercalate texts ++ "]"

private def braced (texts : List String) : String :=
  "\x7b" ++ ", ".intercalate texts ++ "\x7d"

namespace Attribute

mutual

def text : Attribute → String
  | .string text => "S(" ++ Text.quote text ++ ")"
  | .number text => "N(" ++ Text.quote text ++ ")"
  | .binary bytes => "B(" ++ blobText bytes ++ ")"
  | .boolean value => "Bool(" ++ toString value ++ ")"
  | .null flag => "Null(" ++ toString flag ++ ")"
  | .map entries => "M(" ++ braced (entryTexts entries) ++ ")"
  | .list items => "L(" ++ bracketed (itemTexts items) ++ ")"
  | .stringSet members => "Ss(" ++ bracketed (members.map Text.quote) ++ ")"
  | .numberSet members => "Ns(" ++ bracketed (members.map Text.quote) ++ ")"
  | .binarySet members => "Bs(" ++ bracketed (members.map blobText) ++ ")"

def entryTexts : List (String × Attribute) → List String
  | [] => []
  | (name, value) :: rest => (Text.quote name ++ ": " ++ value.text) :: entryTexts rest

def itemTexts : List Attribute → List String
  | [] => []
  | item :: rest => item.text :: itemTexts rest

end

/-- The text of an attribute that may be missing. -/
def optionalText : Option Attribute → String
  | some value => "Some(" ++ value.text ++ ")"
  | none => "None"

end Attribute

def Item.text (item : Item) : String :=
  braced (Attribute.entryTexts item)

end RecordStore
