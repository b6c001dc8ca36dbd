import RecordStore.Attribute.Compare
import RecordStore.Attribute.Path
import RecordStore.Expression.Fault

/-!
# Operands

What conditions compare and what updates write: attributes of the item, given values, and what is
computed from them.
-/

namespace RecordStore

namespace Number

/-- The sum; integers must stay within 64 bits. -/
def sum? (left right : Number) : Option Number :=
  match left, right with
  | .integer left, .integer right =>
    (Decimal.int64? (left.toInt + right.toInt)).map .integer
  | left, right => some (.float (left.toFloat + right.toFloat))

/-- The difference; integers must stay within 64 bits. -/
def difference? (left right : Number) : Option Number :=
  match left, right with
  | .integer left, .integer right =>
    (Decimal.int64? (left.toInt - right.toInt)).map .integer
  | left, right => some (.float (left.toFloat - right.toFloat))

end Number

namespace Expression

inductive Operand where
  | path (path : List String)
  | value (value : Attribute)
  | size (path : List String)
  /-- The attribute at a path, or another operand while it is absent. -/
  | orElse (path : List String) (fallback : Operand)
  | append (left right : Operand)
  | plus (left right : Operand)
  | minus (left right : Operand)
  deriving Repr, Inhabited

def readNumber (text : String) : Except Fault Number :=
  match Number.parse? text with
  | some number => .ok number
  | none => .error (.notANumber text)

/-- The text of a computed number, where both operands are read first. -/
def calculate (operation : Number → Number → Option Number) (left right : String) :
    Except Fault String := do
  let left ← readNumber left
  let right ← readNumber right
  match operation left right with
  | some result => return result.text
  | none => throw .overflow

def calculateOperands (operation : Number → Number → Option Number) :
    Option Attribute → Option Attribute → Except Fault (Option Attribute)
  | some (.number left), some (.number right) => do
    return some (.number (← calculate operation left right))
  | left, right => .error (.arithmetic left right)

def appendOperands : Option Attribute → Option Attribute → Except Fault (Option Attribute)
  | some (.list left), some (.list right) => .ok (some (.list (left ++ right)))
  | left, right => .error (.listAppend left right)

/-- The value of an operand, none when it refers to an absent attribute. -/
def Operand.evaluate (item : Item) : Operand → Except Fault (Option Attribute)
  | .path place => .ok (Item.resolve? item place)
  | .value given => .ok (some given)
  | .size place =>
    .ok (((Item.resolve? item place).bind Attribute.size?).map fun count =>
      .number (toString count))
  | .orElse place fallback =>
    match Item.resolve? item place with
    | some held => .ok (some held)
    | none => fallback.evaluate item
  | .append left right => do
    let left ← left.evaluate item
    let right ← right.evaluate item
    appendOperands left right
  | .plus left right => do
    let left ← left.evaluate item
    let right ← right.evaluate item
    calculateOperands Number.sum? left right
  | .minus left right => do
    let left ← left.evaluate item
    let right ← right.evaluate item
    calculateOperands Number.difference? left right

end Expression

end RecordStore
