import RecordStore.Attribute.Message
import RecordStore.Expression.Token

/-!
# Invalid requests

Why a store refuses a request: an expression that cannot be read or evaluated, a key that does not
fit its table, or a missing part.
-/

namespace RecordStore.Expression

inductive Fault where
  | unexpectedCharacter (character : Char) (expression : String)
  | expectedToken (expected : Token) (found : Option Token)
  | trailingToken (found : Token)
  | undefinedName (placeholder : String)
  | undefinedValue (placeholder : String)
  | expectedPath (found : Option Token)
  | unknownFunction (name : String)
  | betweenWithoutAnd
  | expectedComparison (found : Option Token)
  | expectedClause (found : Option Token)
  | unknownClause (word : String)
  | projectionToken (found : Token)
  | emptyUpdate
  | invalidPath (path : List String)
  | notANumber (text : String)
  | overflow
  | listAppend (left right : Option Attribute)
  | arithmetic (left right : Option Attribute)
  | missingOperand
  | addOperandMissing
  | deleteOperandMissing
  | cannotAdd (current : Option Attribute) (operand : Attribute)
  | cannotDelete (operand current : Attribute)
  | wrongKey (key : Item)
  | missingKeyAttributes
  | keyChanged
  | unknownIndex (name : String)
  | unknownStartKey
  | updateRequired
  | keyConditionRequired
  | noAction
  | noGet
  | putOrDelete

namespace Fault

def reason : Fault → String
  | .unexpectedCharacter character expression =>
    "unexpected character `" ++ character.toString ++ "` in `" ++ expression ++ "`"
  | .expectedToken expected found =>
    "expected " ++ expected.text ++ ", found " ++ Token.optionalText found
  | .trailingToken found => "unexpected trailing token " ++ found.text
  | .undefinedName placeholder => "name alias `" ++ placeholder ++ "` is not defined"
  | .undefinedValue placeholder => "value alias `" ++ placeholder ++ "` is not defined"
  | .expectedPath found => "expected an attribute path, found " ++ Token.optionalText found
  | .unknownFunction name => "unknown function `" ++ name ++ "`"
  | .betweenWithoutAnd => "BETWEEN without AND"
  | .expectedComparison found => "expected a comparison, found " ++ Token.optionalText found
  | .expectedClause found => "expected an update clause, found " ++ Token.optionalText found
  | .unknownClause word => "unknown update clause `" ++ word ++ "`"
  | .projectionToken found => "unexpected token " ++ found.text ++ " in projection"
  | .emptyUpdate => "update expression is empty"
  | .invalidPath path =>
    "the document path " ++ ".".intercalate path ++ " is invalid for update"
  | .notANumber text => "`" ++ text ++ "` is not a number"
  | .overflow => "number overflow"
  | .listAppend left right =>
    "list_append needs two lists, got " ++ Attribute.optionalText left ++ " and " ++
      Attribute.optionalText right
  | .arithmetic left right =>
    "arithmetic needs two numbers, got " ++ Attribute.optionalText left ++ " and " ++
      Attribute.optionalText right
  | .missingOperand => "an operand refers to a missing attribute"
  | .addOperandMissing => "ADD operand is missing"
  | .deleteOperandMissing => "DELETE operand is missing"
  | .cannotAdd current operand =>
    "ADD cannot combine " ++ Attribute.optionalText current ++ " with " ++ operand.text
  | .cannotDelete operand current =>
    "DELETE cannot remove " ++ operand.text ++ " from " ++ current.text
  | .wrongKey key => "key " ++ Item.text key ++ " does not match the table key schema"
  | .missingKeyAttributes => "item is missing its key attributes"
  | .keyChanged => "an update cannot change key attributes"
  | .unknownIndex name => "index `" ++ name ++ "` does not exist"
  | .unknownStartKey => "exclusive start key does not match any item"
  | .updateRequired => "update expression is required"
  | .keyConditionRequired => "a query needs a key condition"
  | .noAction => "transaction item has no action"
  | .noGet => "transaction item has no get"
  | .putOrDelete => "a write request needs exactly one of put or delete"

def message (fault : Fault) : String :=
  "ValidationException: " ++ fault.reason

end Fault

end RecordStore.Expression
