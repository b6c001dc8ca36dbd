import RecordStore.Decimal.Binary64
import RecordStore.Json.Draft
import RecordStore.Text.Hexadecimal

/-!
# Tokens of JSON text

A scanner takes one token off the front of the text and says what is left, which is shorter. The
significand of a number is kept to 64 bits; further digits only move the point. A number with a
fraction or an exponent is its significand, as a double, scaled by a power of ten in double
arithmetic. Strings and numbers that follow the grammar are tokens even when they have no value.
-/

namespace RecordStore.Json

inductive Token where
  | openBrace
  | closeBrace
  | openBracket
  | closeBracket
  | colon
  | comma
  /-- A string, none when it holds half of a surrogate pair. -/
  | string (text : Option String)
  /-- A document of its own: a number, a truth value or null. -/
  | literal (value : Draft)
  deriving Inhabited, Repr

/-! ### Strings -/

def codeUnit? (digits : List Char) : Option Nat :=
  digits.foldlM (fun value digit => (Text.hexDigit? digit).map (16 * value + ·)) 0

def isHighSurrogate (unit : Nat) : Bool :=
  0xd800 ≤ unit && unit < 0xdc00

def isLowSurrogate (unit : Nat) : Bool :=
  0xdc00 ≤ unit && unit < 0xe000

def simpleEscape? : Char → Option Char
  | '"' => some '"'
  | '\\' => some '\\'
  | '/' => some '/'
  | 'b' => some '\x08'
  | 'f' => some '\x0c'
  | 'n' => some '\n'
  | 'r' => some '\r'
  | 't' => some '\t'
  | _ => none

/-- What a string is written of: characters, and UTF-16 code units in digits. -/
inductive StringPart where
  | character (character : Char)
  | codeUnit (unit : Nat)

/-- The parts of a string up to its closing quote, and what follows the quote. -/
def scanString : (characters : List Char) → Option (List StringPart × List Char)
  | [] => none
  | '"' :: rest => some ([], rest)
  | '\\' :: 'u' :: a :: b :: c :: d :: rest => do
    let unit ← codeUnit? [a, b, c, d]
    let (parts, rest) ← scanString rest
    some (.codeUnit unit :: parts, rest)
  | '\\' :: character :: rest => do
    let character ← simpleEscape? character
    let (parts, rest) ← scanString rest
    some (.character character :: parts, rest)
  | character :: rest =>
    if character.toNat < 32 ∨ character = '\\' then none
    else do
      let (parts, rest) ← scanString rest
      some (.character character :: parts, rest)

/-- The characters that the parts stand for; the halves of a surrogate pair must come together. -/
def joinParts? : (parts : List StringPart) → Option (List Char)
  | [] => some []
  | .character character :: parts => (joinParts? parts).map (character :: ·)
  | .codeUnit unit :: parts =>
    if isHighSurrogate unit then
      match parts with
      | .codeUnit low :: parts =>
        if isLowSurrogate low then
          (joinParts? parts).map
            (Char.ofNat (0x10000 + (unit - 0xd800) * 0x400 + (low - 0xdc00)) :: ·)
        else none
      | _ => none
    else if isLowSurrogate unit then none
    else (joinParts? parts).map (Char.ofNat unit :: ·)

def stringToken (parts : List StringPart) : Token :=
  .string ((joinParts? parts).map String.ofList)

/-! ### Numbers -/

def digit (character : Char) : Nat :=
  character.toNat - '0'.toNat

/-- The significand of leading digits that fit into 64 bits, and how many digits do not. -/
def significand (value : Nat) : (digits : List Char) → Nat × Nat
  | [] => (value, 0)
  | character :: rest =>
    if 10 * value + digit character < UInt64.size then
      significand (10 * value + digit character) rest
    else (value, rest.length + 1)

def powerOfTen (exponent : Nat) : Float :=
  Decimal.Binary64.nearest (Nat.pow 10 exponent) 1

/-- The scaled significand, none when it is too large for a double. -/
def scaled? (significand : Nat) (exponent : Int) : Option Float :=
  let value := Float.ofNat significand
  if significand = 0 then some 0.0
  else if exponent > 308 then none
  else if exponent ≥ 0 then
    (some (value * powerOfTen exponent.toNat)).filter fun value => value.isFinite
  else if exponent ≥ -308 then some (value / powerOfTen (-exponent).toNat)
  else if exponent ≥ -616 then
    some (value / powerOfTen 308 / powerOfTen (-exponent - 308).toNat)
  else some 0.0

def signed (negative : Bool) (value : Float) : Float :=
  if negative then -value else value

/-- The exponent after its mark, none when there are no digits. -/
def scanExponent (characters : List Char) : Option (Int × List Char) :=
  let (negative, characters) := match characters with
    | '+' :: rest => (false, rest)
    | '-' :: rest => (true, rest)
    | rest => (false, rest)
  let digits := characters.takeWhile Char.isDigit
  let value : Int := digits.foldl (fun value character => 10 * value + digit character) 0
  if digits.isEmpty then none
  else some (if negative then -value else value, characters.dropWhile Char.isDigit)

/-- The fraction after its point: the significand, the exponent, and the rest. -/
def scanFraction (whole : Nat) (exponent : Int) (characters : List Char) :
    Option (Nat × Int × List Char) :=
  let digits := characters.takeWhile Char.isDigit
  let (value, dropped) := significand whole digits
  if digits.isEmpty then none
  else some (value, exponent - (digits.length - dropped : Nat),
    characters.dropWhile Char.isDigit)

/-- A double after its sign. -/
def floatDraft (negative : Bool) (significand : Nat) (exponent : Int) : Draft :=
  .ofFloat? ((scaled? significand exponent).map (signed negative))

/-- A number after its sign. -/
def scanNumber (negative : Bool) (characters : List Char) : Option (Draft × List Char) := do
  let digits := characters.takeWhile Char.isDigit
  let rest := characters.dropWhile Char.isDigit
  if digits.isEmpty ∨ (digits.head? = some '0' ∧ digits.length > 1) then none
  let (whole, dropped) := significand 0 digits
  let (value, exponent, isWhole, rest) ← match rest with
    | '.' :: rest => do
      let (value, exponent, rest) ← scanFraction whole dropped rest
      some (value, exponent, false, rest)
    | rest => some (whole, (dropped : Int), dropped == 0, rest)
  match rest with
  | 'e' :: rest | 'E' :: rest => do
    let (shift, rest) ← scanExponent rest
    some (floatDraft negative value (exponent + shift), rest)
  | rest =>
    if isWhole ∧ ¬ negative then some (.integer value, rest)
    else if isWhole ∧ 0 < value ∧ Int64.minValue.toInt ≤ -(value : Int) then
      some (.integer (-(value : Int)), rest)
    else some (floatDraft negative value exponent, rest)

/-! ### Tokens -/

def isSpace (character : Char) : Bool :=
  character = ' ' || character = '\n' || character = '\t' || character = '\r'

/-- The token at the front of text that starts with no space. -/
def scanToken : List Char → Option (Token × List Char)
  | '{' :: rest => some (.openBrace, rest)
  | '}' :: rest => some (.closeBrace, rest)
  | '[' :: rest => some (.openBracket, rest)
  | ']' :: rest => some (.closeBracket, rest)
  | ':' :: rest => some (.colon, rest)
  | ',' :: rest => some (.comma, rest)
  | '"' :: rest => (scanString rest).map fun (parts, rest) => (stringToken parts, rest)
  | 't' :: 'r' :: 'u' :: 'e' :: rest => some (.literal (.boolean true), rest)
  | 'f' :: 'a' :: 'l' :: 's' :: 'e' :: rest => some (.literal (.boolean false), rest)
  | 'n' :: 'u' :: 'l' :: 'l' :: rest => some (.literal .null, rest)
  | '-' :: rest => (scanNumber true rest).map fun (value, rest) => (.literal value, rest)
  | characters => (scanNumber false characters).map fun (value, rest) => (.literal value, rest)

/-- Every token takes a character, so that the length of the text bounds their number. -/
def tokensWithin (bound : Nat) (characters : List Char) : Option (List Token) :=
  match bound, characters.dropWhile isSpace with
  | _, [] => some []
  | 0, _ => none
  | bound + 1, characters => do
    let (token, rest) ← scanToken characters
    let tokens ← tokensWithin bound rest
    some (token :: tokens)

def tokens? (text : String) : Option (List Token) :=
  tokensWithin text.length text.toList

end RecordStore.Json
