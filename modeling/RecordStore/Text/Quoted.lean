import RecordStore.Text.Printable

/-!
# Quoted text in messages

Quotes, backslashes and unprintable characters are escaped.
-/

namespace RecordStore.Text

def escape (character : Char) : List Char :=
  match character with
  | '\x00' => ['\\', '0']
  | '\t' => ['\\', 't']
  | '\n' => ['\\', 'n']
  | '\r' => ['\\', 'r']
  | '"' => ['\\', '"']
  | '\\' => ['\\', '\\']
  | character =>
    if isPrintable character then [character]
    else ['\\', 'u', '{'] ++ Nat.toDigits 16 character.toNat ++ ['}']

def quote (text : String) : String :=
  String.ofList (['"'] ++ text.toList.flatMap escape ++ ['"'])

end RecordStore.Text
