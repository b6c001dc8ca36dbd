/-!
# Declared types of values
-/

namespace RecordStore

/-- The shape of a field: one value, or a collection of elements. -/
inductive Kind where
  | scalar
  | map
  | list
  | set
  deriving DecidableEq, Repr, Inhabited

/-- The type of a scalar, or of the elements of a collection. -/
inductive ElementType where
  | string
  | integer
  | long
  | float
  | double
  | boolean
  | binary
  | object (typeName : String)
  deriving DecidableEq, Repr, Inhabited

namespace ElementType

def isNumeric : ElementType → Bool
  | .integer | .long | .float | .double => true
  | _ => false

/-- Whether native sets can hold elements of this type. -/
def isSetElement : ElementType → Bool
  | .string | .binary => true
  | element => element.isNumeric

def isKey (element : ElementType) : Bool :=
  element.isSetElement

def text : ElementType → String
  | .string => "string"
  | .integer => "integer"
  | .long => "long"
  | .float => "float"
  | .double => "double"
  | .boolean => "boolean"
  | .binary => "binary"
  | .object typeName => "object " ++ typeName

end ElementType

def Kind.name : Kind → String
  | .scalar => "Scalar"
  | .map => "Map"
  | .list => "List"
  | .set => "Set"

/-- A shape with the type of its elements, which may be left undeclared. -/
structure ValueType where
  kind : Kind
  element : Option ElementType
  deriving DecidableEq, Repr, Inhabited

namespace ValueType

def scalar (element : ElementType) : ValueType :=
  ⟨.scalar, some element⟩

def isCollection (type : ValueType) : Bool :=
  type.kind ≠ .scalar

def text (type : ValueType) : String :=
  let element := match type.element with
    | some element => element.text
    | none => "?"
  match type.kind with
  | .scalar => element
  | .map => "map<" ++ element ++ ">"
  | .list => "list<" ++ element ++ ">"
  | .set => "set<" ++ element ++ ">"

end ValueType

end RecordStore
