import RecordStore.Decimal.Notation
import RecordStore.Json.Basic
import RecordStore.Text.Hexadecimal

/-!
# Compact JSON text

Only quotes, backslashes and control characters are escaped; infinities and not-a-number are
written as `null`.
-/

namespace RecordStore.Json

def escape (character : Char) : List Char :=
  match character with
  | '"' => ['\\', '"']
  | '\\' => ['\\', '\\']
  | '\n' => ['\\', 'n']
  | '\r' => ['\\', 'r']
  | '\t' => ['\\', 't']
  | '\x08' => ['\\', 'b']
  | '\x0c' => ['\\', 'f']
  | character =>
    if character.toNat < 32 then
      ['\\', 'u', '0', '0'] ++ Text.hexByte (UInt8.ofNat character.toNat)
    else [character]

def quote (text : String) : String :=
  String.ofList (['"'] ++ text.toList.flatMap escape ++ ['"'])

def floatText (value : Float) : String :=
  if value.isFinite then Decimal.Notation.json.text value else "null"

mutual

def text : Json → String
  | .null => "null"
  | .boolean true => "true"
  | .boolean false => "false"
  | .integer value => toString value
  | .float value => floatText value
  | .string text => quote text
  | .array items => "[" ++ ",".intercalate (itemTexts items) ++ "]"
  | .object members => "\x7b" ++ ",".intercalate (memberTexts members) ++ "\x7d"

def itemTexts : List Json → List String
  | [] => []
  | item :: items => item.text :: itemTexts items

def memberTexts : List (String × Json) → List String
  | [] => []
  | (name, member) :: members => (quote name ++ ":" ++ member.text) :: memberTexts members

end

end RecordStore.Json
