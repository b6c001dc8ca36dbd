import RecordStore.Schema.Table

/-!
# Keys

A key is read from a record by logical field names and stored under the names of its attributes.
Components of keys are strings, numbers or bytes, numbers being narrowed to their declared type.
-/

namespace RecordStore

namespace Codec

/-- Reads the text of a stored number in a declared type. -/
def numberOfText (text : String) (element : ElementType) : Except Error Number :=
  match Number.parse? text with
  | some number => .ok (number.narrow element)
  | none => .error (.codec (.notANumber text))

def encodeKey (value : Value) (element : ElementType) : Except Error Attribute :=
  match element, value with
  | .string, .string text => .ok (.string text)
  | .binary, .binary bytes => .ok (.binary bytes)
  | element, .number number =>
    if element.isNumeric then .ok (.number (number.narrow element).text)
    else .error (.codec (.keyShape element .number))
  | element, value => .error (.codec (.keyShape element value.shape))

def decodeKey (stored : Attribute) (element : ElementType) : Except Error Value :=
  match element, stored with
  | .string, .string text => .ok (.string text)
  | .binary, .binary bytes => .ok (.binary bytes)
  | element, .number text =>
    if element.isNumeric then (numberOfText text element).map .number
    else .error (.codec (.keyAttribute element stored))
  | element, stored => .error (.codec (.keyAttribute element stored))

end Codec

namespace KeyField

/-- The key component that a record holds. -/
def ofRecord (key : KeyField) (record : Record) : Except Error Value :=
  match record.get? key.field with
  | none | some .null => .error (.contract (.missingKeyValue record.typeName key.field))
  | some value => .ok value

/-- Whether a value has the shape that the component declares. -/
def accepts (key : KeyField) (value : Value) : Bool :=
  match key.element, value with
  | .string, .string _ => true
  | .binary, .binary _ => true
  | element, .number _ => element.isNumeric
  | _, _ => false

def encode (key : KeyField) (value : Value) : Except Error Attribute :=
  if key.accepts value then Codec.encodeKey value key.element
  else .error (.codec (.keyFieldShape key.field key.element value.shape))

/-- The key component that a stored item holds. -/
def ofItem (key : KeyField) (item : Item) : Except Error Value :=
  match Item.get? item key.wireName with
  | some stored => Codec.decodeKey stored key.element
  | none => .error (.codec (.missingKeyAttribute key.wireName))

end KeyField

namespace KeySchema

def ofRecord (keys : KeySchema) (record : Record) : Except Error RecordKey := do
  let hash ← keys.hash.ofRecord record
  match keys.range with
  | none => return ⟨hash, none⟩
  | some range => return ⟨hash, some (← range.ofRecord record)⟩

/-- The attributes that make up a key. -/
def toItem (keys : KeySchema) (key : RecordKey) : Except Error Item := do
  let hash ← keys.hash.encode key.hash
  let item := Item.set [] keys.hash.wireName hash
  match keys.range, key.range with
  | some range, some value => return Item.set item range.wireName (← range.encode value)
  | none, none => return item
  | some range, none => throw (.contract (.missingRange range.field))
  | none, some _ => throw (.contract .unexpectedRange)

def ofItem (keys : KeySchema) (item : Item) : Except Error RecordKey := do
  let hash ← keys.hash.ofItem item
  match keys.range with
  | none => return ⟨hash, none⟩
  | some range => return ⟨hash, some (← range.ofItem item)⟩

end KeySchema

/-- The key attributes of a record of the root type. -/
def TableSchema.keyItem (table : TableSchema) (record : Record) : Except Error Item := do
  table.keys.toItem (← table.keys.ofRecord record)

end RecordStore
