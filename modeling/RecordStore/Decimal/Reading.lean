import RecordStore.Decimal.Binary64

/-!
# Reading decimal text

Integers are an optional sign and digits. Floating-point numbers may also have a fraction, an
exponent, or be one of the words for infinity and not-a-number; they read as the nearest double.
-/

namespace RecordStore.Decimal

/-- The number that a non-empty run of digits stands for. -/
def digitsValue? (characters : List Char) : Option Nat :=
  if characters.isEmpty ∨ ¬ characters.all Char.isDigit then none
  else some (characters.foldl (fun value digit => 10 * value + (digit.toNat - '0'.toNat)) 0)

def readSigned? (characters : List Char) : Option Int :=
  match characters with
  | '+' :: digits => (digitsValue? digits).map Int.ofNat
  | '-' :: digits => (digitsValue? digits).map fun value => -(value : Int)
  | digits => (digitsValue? digits).map Int.ofNat

/-- The integer of 64 bits that has a value, when there is one. -/
def int64? (value : Int) : Option Int64 :=
  if Int64.minValue.toInt ≤ value ∧ value ≤ Int64.maxValue.toInt then some (Int64.ofInt value)
  else none

def readInt64? (text : String) : Option Int64 :=
  (readSigned? text.toList).bind int64?

/-- Unsigned numbers take a plus sign but no minus sign. -/
def readUInt32? (characters : List Char) : Option UInt32 :=
  let digits := match characters with
    | '+' :: digits => digits
    | digits => digits
  (digitsValue? digits).bind fun value =>
    if value < UInt32.size then some (UInt32.ofNat value) else none

/-- The double nearest to `significand · 10 ^ exponent`. -/
def scaled (significand : Nat) (exponent : Int) : Float :=
  let magnitude : Int := (Nat.toDigits 10 significand).length + exponent
  if significand = 0 ∨ magnitude < -400 then 0.0
  else if magnitude > 400 then Float.ofBits 0x7ff0000000000000
  else if exponent ≥ 0 then Binary64.nearest (significand * Nat.pow 10 exponent.toNat) 1
  else Binary64.nearest significand (Nat.pow 10 (-exponent).toNat)

/-- Digits with at most one point among them, at least one digit in all. -/
def readFraction? (characters : List Char) : Option (Nat × Int) :=
  let whole := characters.takeWhile Char.isDigit
  match characters.dropWhile Char.isDigit with
  | [] => (digitsValue? whole).map fun value => (value, 0)
  | '.' :: fraction =>
    if fraction.all Char.isDigit then
      (digitsValue? (whole ++ fraction)).map fun value => (value, -(fraction.length : Int))
    else none
  | _ => none

def readMagnitude? (characters : List Char) : Option Float :=
  let isMark := fun character : Char => character = 'e' ∨ character = 'E'
  let mantissa := characters.takeWhile fun character => !isMark character
  match characters.dropWhile fun character => !isMark character with
  | [] => (readFraction? mantissa).map fun (significand, exponent) => scaled significand exponent
  | _ :: exponent => do
    let (significand, shift) ← readFraction? mantissa
    let exponent ← readSigned? exponent
    some (scaled significand (exponent + shift))

def readWord? (characters : List Char) : Option Float :=
  match String.ofList (characters.map Char.toLower) with
  | "inf" | "infinity" => some (Float.ofBits 0x7ff0000000000000)
  | "nan" => some (Float.ofBits 0x7ff8000000000000)
  | _ => none

def readFloat? (text : String) : Option Float :=
  let unsigned := fun characters => readWord? characters <|> readMagnitude? characters
  match text.toList with
  | '+' :: characters => unsigned characters
  | '-' :: characters => (unsigned characters).map fun value => -value
  | characters => unsigned characters

end RecordStore.Decimal
