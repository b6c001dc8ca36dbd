import RecordStore.Schema.Table

/-!
# Paths to attributes

A path of logical names leads through the fields of a table to the names of stored attributes. Below
a map the next segment is the name of an entry, and the counters of a table are named as they are.
-/

namespace RecordStore

/-- The parts of a path between its points. The characters `pending`, held last first, are the
beginning of the next part. -/
def Path.segments (pending : List Char) : List Char → List String
  | [] => [String.ofList pending.reverse]
  | '.' :: rest => String.ofList pending.reverse :: Path.segments [] rest
  | character :: rest => Path.segments (character :: pending) rest

/-- What the next segment of a path names. -/
inductive PathScope where
  | fields (type : TypeSchema)
  | entries (element : ElementType)
  /-- Values that nothing can be named within. -/
  | nothing

namespace PathScope

/-- What can be named within a value of an element type. -/
def ofElement (table : TableSchema) : ElementType → Except Error PathScope
  | .object typeName => (table.requireType typeName).map fields
  | _ => .ok nothing

/-- What can be named within a field. -/
def ofField (table : TableSchema) (field : FieldSchema) : Except Error PathScope :=
  match field.type.kind, field.type.element with
  | .scalar, some element => ofElement table element
  | .map, some element => .ok (entries element)
  | _, _ => .ok nothing

end PathScope

namespace TableSchema

/-- The attribute that a segment names, with what can be named within it. Only the first segment of
the whole path may name a counter. -/
def resolveSegment (table : TableSchema) (path : String) (isFirst : Bool) (scope : PathScope)
    (segment : String) : Except Error (String × PathScope) :=
  if segment.isEmpty then .error (.contract (.emptySegment path))
  else
    match scope with
    | .entries element => do return (segment, ← PathScope.ofElement table element)
    | .nothing => .error (.contract (.notAnObject path segment))
    | .fields type =>
      match type.field? segment with
      | some field => do return (field.wireName, ← PathScope.ofField table field)
      | none =>
        if isFirst && table.isReserved segment then .ok (segment, .nothing)
        else .error (.contract (.undeclaredSegment path segment type.name))

def resolveSegments (table : TableSchema) (path : String) (isFirst : Bool) (scope : PathScope) :
    List String → Except Error (List String)
  | [] => .ok []
  | segment :: rest => do
    let (name, scope) ← table.resolveSegment path isFirst scope segment
    return name :: (← table.resolveSegments path false scope rest)

/-- The names of the attributes that a path of logical names, joined by points, leads through. -/
def resolvePath (table : TableSchema) (path : String) : Except Error (List String) :=
  table.resolveSegments path true (.fields table.root) (Path.segments [] path.toList)

end TableSchema

end RecordStore
