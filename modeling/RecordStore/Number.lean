import RecordStore.Decimal.Notation
import RecordStore.Decimal.Reading
import RecordStore.Schema.ValueType
import RecordStore.Text.Blank

/-!
# Numbers

A number stays integral when it was written as one. Arithmetic and coercion take place in the width
of a declared type: `integer` wraps at 32 bits, `long` at 64 bits, and `float` rounds to single
precision.
-/

namespace RecordStore

inductive Number where
  | integer (value : Int64)
  | float (value : Float)
  deriving Inhabited, Repr

namespace Number

/-- The number as an integer; a float is cut toward zero and clamped, not-a-number becomes zero. -/
def toInt64 : Number → Int64
  | .integer value => value
  | .float value => value.toInt64

def toFloat : Number → Float
  | .integer value => value.toFloat
  | .float value => value

def zero : ElementType → Number
  | .float | .double => .float 0.0
  | _ => .integer 0

/-- Reads the text form of a stored number; integers of more than 64 bits are read as floats. -/
def parse? (text : String) : Option Number :=
  let text := String.ofList (Text.trim text.toList)
  match Decimal.readInt64? text with
  | some value => some (.integer value)
  | none =>
    ((Decimal.readFloat? text).filter fun value => value.isFinite).map .float

/-- The text form of a stored number. -/
def text : Number → String
  | .integer value => toString value.toInt
  | .float value => Decimal.Notation.plain.text value

/-- The number in the representation and range of a declared type. -/
def narrow (number : Number) : ElementType → Number
  | .integer => .integer number.toInt64.toInt32.toInt64
  | .long => .integer number.toInt64
  | .float => .float number.toFloat.toFloat32.toFloat
  | .double => .float number.toFloat
  | _ => number

/-- The sum in the width of a declared type. -/
def add (left right : Number) : ElementType → Number
  | .integer => .integer (left.toInt64.toInt32 + right.toInt64.toInt32).toInt64
  | .long => .integer (left.toInt64 + right.toInt64)
  | .float => .float (left.toFloat.toFloat32 + right.toFloat.toFloat32).toFloat
  | .double => .float (left.toFloat + right.toFloat)
  | _ =>
    match left, right with
    | .integer left, .integer right => .integer (left + right)
    | left, right => .float (left.toFloat + right.toFloat)

/-- Two integers are compared exactly, any other two numbers as floats. -/
def same (left right : Number) : Bool :=
  match left, right with
  | .integer left, .integer right => left = right
  | left, right => left.toFloat == right.toFloat

instance : BEq Number := ⟨same⟩

/-- The order of two numbers, none when one is not-a-number. -/
def compare? (left right : Number) : Option Ordering :=
  match left, right with
  | .integer left, .integer right => some (compare left.toInt right.toInt)
  | left, right =>
    let left := left.toFloat
    let right := right.toFloat
    if left < right then some .lt
    else if left == right then some .eq
    else if right < left then some .gt
    else none

end Number

end RecordStore
