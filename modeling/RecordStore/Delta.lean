import RecordStore.Error.Basic

/-!
# Pending changes to a value

A delta says how a field changes, and merging it with the field's value gives the changed value.
Views of records and compiled updates both come from the same merge.
-/

namespace RecordStore

/-- A change to a scalar. A replacement wins over an amount to add, and removal over both. -/
structure ScalarDelta where
  set : Option Value
  amount : Option Number
  remove : Bool
  deriving Inhabited, Repr

/-- A change to a map. Deleted entries win over updated ones, and updated ones over amounts. -/
structure MapDelta where
  updates : List (String × Value)
  amounts : List (String × Number)
  deletes : List String
  clear : Bool
  deriving Inhabited, Repr

/-- A change to a set. Deleted elements win over added ones. -/
structure SetDelta where
  adds : List Value
  deletes : List Value
  clear : Bool
  deriving Inhabited, Repr

/-- A change to a list. -/
structure ListDelta where
  appends : List Value
  clear : Bool
  deriving Inhabited, Repr

inductive CollectionDelta where
  | map (delta : MapDelta)
  | set (delta : SetDelta)
  | list (delta : ListDelta)
  deriving Inhabited, Repr

/-- The sum of a value and an amount, where a missing value counts as zero. -/
def addAmount (base : Value) (amount : Number) (element : ElementType) : Except Error Value :=
  match base with
  | .null => .ok (.number ((Number.zero element).add amount element))
  | .number number => .ok (.number (number.add amount element))
  | other => .error (.codec (.cannotAdd other.shape))

namespace ScalarDelta

def none : ScalarDelta :=
  ⟨.none, .none, false⟩

def ofSet (value : Value) : ScalarDelta :=
  ⟨some value, .none, false⟩

def ofAmount (amount : Number) : ScalarDelta :=
  ⟨.none, some amount, false⟩

def ofRemove : ScalarDelta :=
  ⟨.none, .none, true⟩

def isEmpty (delta : ScalarDelta) : Bool :=
  delta.set.isNone && delta.amount.isNone && !delta.remove

def merge (delta : ScalarDelta) (base : Value) (element : ElementType) : Except Error Value :=
  if delta.remove then .ok .null
  else
    match delta.set, delta.amount with
    | some value, _ => .ok value
    | .none, some amount => addAmount base amount element
    | .none, .none => .ok base

end ScalarDelta

namespace MapDelta

def none : MapDelta :=
  ⟨[], [], [], false⟩

def isEmpty (delta : MapDelta) : Bool :=
  !delta.clear && delta.updates.isEmpty && delta.amounts.isEmpty && delta.deletes.isEmpty

/-- The entries of the base, none of them when the delta clears. -/
def baseEntries (delta : MapDelta) (base : Value) : Except Error (List (String × Value)) :=
  if delta.clear then .ok []
  else
    match base with
    | .null => .ok []
    | .map entries => .ok entries
    | other => .error (.codec (.unexpectedShape "map" other.shape))

def addTo (element : ElementType) (updates : List (String × Value))
    (entries : List (String × Value)) (amount : String × Number) :
    Except Error (List (String × Value)) :=
  if Entries.contains updates amount.1 then .ok entries
  else
    (addAmount ((Entries.find? entries amount.1).getD .null) amount.2 element).map fun value =>
      Entries.put entries amount.1 value

def merge (delta : MapDelta) (base : Value) (element : ElementType) : Except Error Value := do
  let entries ← delta.baseEntries base
  let entries := delta.updates.foldl (fun held entry => Entries.put held entry.1 entry.2) entries
  let entries ← delta.amounts.foldlM (addTo element delta.updates) entries
  return .map (entries.filter fun entry => !delta.deletes.contains entry.1)

end MapDelta

namespace SetDelta

def none : SetDelta :=
  ⟨[], [], false⟩

def isEmpty (delta : SetDelta) : Bool :=
  !delta.clear && delta.adds.isEmpty && delta.deletes.isEmpty

def baseElements (delta : SetDelta) (base : Value) : Except Error (List Value) :=
  if delta.clear then .ok []
  else
    match base with
    | .null => .ok []
    | .set elements => .ok elements
    | .list elements => .ok elements
    | other => .error (.codec (.unexpectedShape "set" other.shape))

/-- The elements with one more, unless it is among them. -/
def adjoin (elements : List Value) (value : Value) : List Value :=
  if elements.any fun element => element == value then elements else elements ++ [value]

def merge (delta : SetDelta) (base : Value) : Except Error Value :=
  (delta.baseElements base).map fun elements =>
    .set ((delta.adds.foldl adjoin elements).filter fun element =>
      !delta.deletes.any fun deleted => deleted == element)

end SetDelta

namespace ListDelta

def none : ListDelta :=
  ⟨[], false⟩

def isEmpty (delta : ListDelta) : Bool :=
  !delta.clear && delta.appends.isEmpty

def merge (delta : ListDelta) (base : Value) : Except Error Value :=
  if delta.clear then .ok (.list delta.appends)
  else
    match base with
    | .null => .ok (.list delta.appends)
    | .list items => .ok (.list (items ++ delta.appends))
    | other => .error (.codec (.unexpectedShape "list" other.shape))

end ListDelta

namespace CollectionDelta

/-- The delta without changes for a kind of collection. -/
def none? : Kind → Option CollectionDelta
  | .scalar => none
  | .map => some (.map .none)
  | .set => some (.set .none)
  | .list => some (.list .none)

def isEmpty : CollectionDelta → Bool
  | .map delta => delta.isEmpty
  | .set delta => delta.isEmpty
  | .list delta => delta.isEmpty

def clears : CollectionDelta → Bool
  | .map delta => delta.clear
  | .set delta => delta.clear
  | .list delta => delta.clear

/-- The delta with the elements of the base discarded first. -/
def clearing : CollectionDelta → CollectionDelta
  | .map delta => .map { delta with clear := true }
  | .set delta => .set { delta with clear := true }
  | .list delta => .list { delta with clear := true }

def merge (delta : CollectionDelta) (base : Value) (element : ElementType) :
    Except Error Value :=
  match delta with
  | .map delta => delta.merge base element
  | .set delta => delta.merge base
  | .list delta => delta.merge base

end CollectionDelta

end RecordStore
