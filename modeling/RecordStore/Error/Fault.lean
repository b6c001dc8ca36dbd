import RecordStore.Attribute.Message
import RecordStore.Json.Printer
import RecordStore.Record.Value

/-!
# Causes of errors

What can be wrong with a schema description, with a value or its stored form, and with the use of
the library.
-/

namespace RecordStore

private def ticked (text : String) : String :=
  "`" ++ text ++ "`"

/-- Why a schema description is refused. -/
inductive SchemaFault where
  | malformed
  | unnamedTable
  | sharedAttribute (table shared : String)
  | repeatedType (table typeName : String)
  | unnamedField (typeName : String)
  | invalidWireName (typeName field wireName : String)
  | undeclaredElement (typeName field : String)
  | compressedScalar (typeName field : String)
  | setElement (typeName field : String) (element : ElementType)
  | rekeyedKind (typeName field : String)
  | expiryType (table typeName field : String)
  | repeatedField (typeName field : String)
  | repeatedWireName (typeName wireName : String)
  | reservedWireName (typeName field wireName : String)
  | nestedExpiry (typeName field : String)
  | repeatedExpiry (table : String)
  | undeclaredRoot (table typeName : String)
  | undeclaredObject (typeName field child : String)
  | rekeyedWithoutId (typeName field child : String)
  | cyclic (path : List String) (repeated : String)
  | undeclaredKey (table role field : String)
  | transientKey (table role field : String)
  | keyType (table role field : String)
  | repeatedIndex (table index : String)
  | projection (table role field : String)
  | invalidDefault (typeName field reason : String)
  | repeatedTable (table : String)
  | migrationTable (table : String)
  | migrationVersion (table : String) (version limit : UInt32)

private def fieldName (typeName field : String) : String :=
  ticked (typeName ++ "." ++ field)

def SchemaFault.reason : SchemaFault → String
  | .malformed => "malformed schema description"
  | .unnamedTable => "table with no name"
  | .sharedAttribute table shared =>
    "table " ++ ticked table ++ " uses " ++ ticked shared ++ " for both version and revision"
  | .repeatedType table typeName =>
    "table " ++ ticked table ++ " declares type " ++ ticked typeName ++ " twice"
  | .unnamedField typeName => "type " ++ ticked typeName ++ " has a field with no name"
  | .invalidWireName typeName field wireName =>
    "field " ++ fieldName typeName field ++ " has invalid wire name " ++ ticked wireName
  | .undeclaredElement typeName field =>
    "field " ++ fieldName typeName field ++ " declares no element type"
  | .compressedScalar typeName field =>
    "field " ++ fieldName typeName field ++ " requests compression but is not a collection"
  | .setElement typeName field element =>
    "field " ++ fieldName typeName field ++ " is a set of " ++ element.text ++
      "; sets hold strings, numbers or binary"
  | .rekeyedKind typeName field =>
    "field " ++ fieldName typeName field ++ " re-keys by id but is not a list of objects"
  | .expiryType table typeName field =>
    "expiry field " ++ fieldName typeName field ++ " of table " ++ ticked table ++
      " must be an integer or long scalar"
  | .repeatedField typeName field =>
    "duplicate field name " ++ ticked field ++ " in type " ++ ticked typeName
  | .repeatedWireName typeName wireName =>
    "duplicate wire name " ++ ticked wireName ++ " in type " ++ ticked typeName
  | .reservedWireName typeName field wireName =>
    "field " ++ fieldName typeName field ++ " uses reserved attribute " ++ ticked wireName
  | .nestedExpiry typeName field =>
    "expiry field " ++ fieldName typeName field ++ " must belong to the root type"
  | .repeatedExpiry table => "table " ++ ticked table ++ " declares more than one expiry field"
  | .undeclaredRoot table typeName =>
    "table " ++ ticked table ++ " root type " ++ ticked typeName ++ " is not declared"
  | .undeclaredObject typeName field child =>
    "field " ++ fieldName typeName field ++ " refers to undeclared type " ++ ticked child
  | .rekeyedWithoutId typeName field child =>
    "field " ++ fieldName typeName field ++ " re-keys by id but type " ++ ticked child ++
      " has no scalar `id` field"
  | .cyclic path repeated =>
    "type graph is cyclic: " ++ " -> ".intercalate path ++ " -> " ++ repeated
  | .undeclaredKey table role field =>
    "table " ++ ticked table ++ " " ++ role ++ " refers to undeclared field " ++ ticked field
  | .transientKey table role field =>
    "table " ++ ticked table ++ " " ++ role ++ " field " ++ ticked field ++ " is not persisted"
  | .keyType table role field =>
    "table " ++ ticked table ++ " " ++ role ++ " field " ++ ticked field ++
      " must be a string, number or binary scalar"
  | .repeatedIndex table index =>
    "table " ++ ticked table ++ " declares index " ++ ticked index ++ " twice"
  | .projection table role field =>
    "table " ++ ticked table ++ " " ++ role ++ " projects undeclared or transient field " ++
      ticked field
  | .invalidDefault typeName field reason =>
    "default of field " ++ fieldName typeName field ++ " does not match its type: " ++ reason
  | .repeatedTable table => "table " ++ ticked table ++ " is declared twice"
  | .migrationTable table => "migration registered for unknown table " ++ ticked table
  | .migrationVersion table version limit =>
    "migration for table " ++ ticked table ++ " targets version " ++ toString version.toNat ++
      ", outside 1..=" ++ toString limit.toNat

/-- The two counters that items carry beside their fields. -/
inductive Counter where
  | version
  | revision
  deriving DecidableEq, Repr

def Counter.name : Counter → String
  | .version => "version"
  | .revision => "revision"

/-- Why a value does not match the shape its field declares. -/
inductive CodecFault where
  | counterText (counter : Counter) (name text : String)
  | counterKind (counter : Counter) (name : String) (found : Attribute)
  | unexpectedShape (expected : String) (found : Shape)
  | unexpectedObject (expected found : String)
  | unexpectedAttribute (expected : String) (found : Attribute)
  | unexpectedJson (expected : String) (found : Json)
  | notAByte (found : Json)
  | notANumber (text : String)
  | undeclaredField (typeName field : String)
  | noUsableId (typeName : String)
  | cannotAdd (found : Shape)
  | keyShape (element : ElementType) (found : Shape)
  | keyAttribute (element : ElementType) (found : Attribute)
  | keyFieldShape (field : String) (element : ElementType) (found : Shape)
  | missingKeyAttribute (name : String)
  | notCompressed
  | malformedJson
  /-- A reason given by a migration step. -/
  | custom (reason : String)

def CodecFault.reason : CodecFault → String
  | .counterText counter name text =>
    counter.name ++ " attribute " ++ ticked name ++ " holds " ++ ticked text
  | .counterKind counter name found =>
    counter.name ++ " attribute " ++ ticked name ++ " is not a number: " ++ found.text
  | .unexpectedShape expected found => "expected " ++ expected ++ ", got " ++ found.name
  | .unexpectedObject expected found =>
    "expected object " ++ expected ++ ", got object " ++ found
  | .unexpectedAttribute expected found => "expected " ++ expected ++ ", stored " ++ found.text
  | .unexpectedJson expected found => "expected " ++ expected ++ ", got JSON " ++ found.text
  | .notAByte found => ticked found.text ++ " is not a byte"
  | .notANumber text => ticked text ++ " is not a number"
  | .undeclaredField typeName field =>
    "type " ++ ticked typeName ++ " has no field " ++ ticked field
  | .noUsableId typeName => "object " ++ typeName ++ " has no usable `id` to key it by"
  | .cannotAdd found => "cannot add a number to a " ++ found.name
  | .keyShape element found => "key of type " ++ element.text ++ " cannot hold a " ++ found.name
  | .keyAttribute element found => "key of type " ++ element.text ++ " stored as " ++ found.text
  | .keyFieldShape field element found =>
    "key field " ++ ticked field ++ " expects " ++ element.text ++ ", got " ++ found.name
  | .missingKeyAttribute name => "item has no key attribute " ++ ticked name
  | .notCompressed => "gunzip failed"
  | .malformedJson => "malformed JSON"
  | .custom reason => reason

/-- How a caller broke the rules of the library. -/
inductive ContractFault where
  | unknownTable (table : String)
  | recordType (table root found : String)
  | undeclaredField (typeName field : String)
  | unknownType (table typeName : String)
  | unknownIndex (table index : String)
  | missingKeyValue (typeName field : String)
  | missingRange (field : String)
  | unexpectedRange
  | undeclaredElement (kind : Kind)
  | setElement (element : ElementType)
  | rekeyedElement (field : String)
  | emptySegment (path : String)
  | notAnObject (path segment : String)
  | undeclaredSegment (path segment typeName : String)
  | noCandidates (path : String)
  | emptyGroup
  | keyCondition (path : List String)
  | noRangeKey (queried : String)
  | incrementValue (element : ElementType)
  | incrementField (field : String) (type : ValueType)
  | incrementEntry (element : ElementType)
  | nonScalarMutation (field : String)
  | collectionKind (field : String) (type : ValueType) (kind : Kind)
  | notACollection (field : String)
  | clearScalar (field : String)
  | notANestedObject (field : String)
  | replacedWhole (field : String)
  | keyField (field table : String)
  | sharedStem (stem : String)
  | repeatedPlaceholder (placeholder : String)
  /-- A reason given by the caller. -/
  | custom (reason : String)

def ContractFault.reason : ContractFault → String
  | .unknownTable table => "table " ++ ticked table ++ " is not registered"
  | .recordType table root found =>
    "table " ++ ticked table ++ " stores " ++ ticked root ++ " records, got " ++ ticked found
  | .undeclaredField typeName field =>
    "type " ++ ticked typeName ++ " has no field " ++ ticked field
  | .unknownType table typeName =>
    "table " ++ ticked table ++ " has no type " ++ ticked typeName
  | .unknownIndex table index => "table " ++ ticked table ++ " has no index " ++ ticked index
  | .missingKeyValue typeName field =>
    "record of type " ++ ticked typeName ++ " has no value for key field " ++ ticked field
  | .missingRange field => "key is missing its range component " ++ ticked field
  | .unexpectedRange => "key has a range component the table does not declare"
  | .undeclaredElement kind => kind.name ++ " value declared without an element type"
  | .setElement element => "a set cannot hold " ++ element.text ++ " elements"
  | .rekeyedElement field => "field " ++ ticked field ++ " re-keys non-object elements"
  | .emptySegment path => "path " ++ ticked path ++ " has an empty segment"
  | .notAnObject path segment =>
    "path " ++ ticked path ++ " descends into a non-object value at " ++ ticked segment
  | .undeclaredSegment path segment typeName =>
    "path " ++ ticked path ++ " refers to undeclared field " ++ ticked segment ++ " of type " ++
      ticked typeName
  | .noCandidates path => "IN condition on " ++ path ++ " has no values"
  | .emptyGroup => "empty condition group"
  | .keyCondition path => "unsupported key condition on " ++ ticked (".".intercalate path)
  | .noRangeKey queried => ticked queried ++ " has no range key to query on"
  | .incrementValue element => "cannot increment a " ++ element.text ++ " value"
  | .incrementField field type => "cannot increment " ++ ticked field ++ " of type " ++ type.text
  | .incrementEntry element => "cannot increment an entry of a " ++ element.text ++ " map"
  | .nonScalarMutation field => ticked field ++ " already has a non-scalar mutation"
  | .collectionKind field type kind =>
    ticked field ++ " is a " ++ type.text ++ ", not a " ++ kind.name ++ " collection"
  | .notACollection field => ticked field ++ " is not a collection"
  | .clearScalar field => "cannot clear scalar field " ++ ticked field
  | .notANestedObject field => ticked field ++ " is not a nested object"
  | .replacedWhole field =>
    ticked field ++ " was replaced whole; mutate the replacement value instead"
  | .keyField field table => "key field " ++ ticked field ++ " of " ++ ticked table ++
      " cannot be updated"
  | .sharedStem stem => "cannot merge alias generators sharing prefix " ++ ticked stem
  | .repeatedPlaceholder placeholder => "alias " ++ ticked placeholder ++ " is defined twice"
  | .custom reason => reason

end RecordStore
