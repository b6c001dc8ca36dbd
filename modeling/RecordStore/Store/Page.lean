import RecordStore.Store.Table

/-!
# Reading pages

Queries and scans read the items of a table, or of an index, page by page. A page ends after a
limited number of items, which are filtered and projected afterwards.
-/

namespace RecordStore

open Expression (Fault Bindings)

/-- What every paginated read asks for. -/
structure PageRequest where
  index : Option String
  filter : Option String
  projection : Option String
  bindings : Bindings
  /-- The last item of the page before. -/
  start : Option Item
  limit : Option Int

structure Page where
  items : List Item
  /-- The number of items before filtering. -/
  scanned : Nat
  /-- Where the next page starts, when there is one. -/
  lastKey : Option Item

namespace StoredTable

/-- Puts an item before those that follow it, given the items before it from the last. -/
def insertLast (precedes : Item → Item → Bool) (item : Item) : List Item → List Item
  | [] => [item]
  | last :: rest =>
    if precedes item last then last :: insertLast precedes item rest else item :: last :: rest

/-- The items in order; items of which neither precedes the other stay as they are. -/
def sortItems (precedes : Item → Item → Bool) (items : List Item) : List Item :=
  (items.foldl (fun sorted item => insertLast precedes item sorted) []).reverse

/-- Whether one item comes before another by a range key. Keys of different kinds are not
ordered. -/
def rangePrecedes (range : String) (left right : Item) : Bool :=
  match Item.get? left range, Item.get? right range with
  | some left, some right => left.compare? right = some .lt
  | _, _ => false

def hasAllKeys (keys : KeyNames) (item : Item) : Bool :=
  (keys.keyOf? item).isSome

def indexKeys (table : StoredTable) (index : Option String) : Except Fault KeyNames :=
  match index with
  | some name => table.requireIndex name
  | none => .ok table.keys

/-- The keys of an item in its table and in the index that is read. -/
def pageKey (table : StoredTable) (index : Option String) (item : Item) : Item :=
  let own := (table.keys.keyOf? item).getD []
  match index.bind (Entries.find? table.indexes) with
  | some keys => ((keys.keyOf? item).getD []).foldl (fun key entry =>
      Item.set key entry.1 entry.2) own
  | none => own

/-- The candidates after the one that has the attributes of a key. -/
def startAfter (candidates : List Item) (start : Option Item) : Except Fault (List Item) :=
  match start with
  | none => .ok candidates
  | some key =>
    match candidates.dropWhile fun item => !item.hasKey key with
    | _ :: rest => .ok rest
    | [] => .error .unknownStartKey

/-- Filters and projects one item. -/
def readItem (filter : Option Expression.Predicate) (request : PageRequest) (item : Item) :
    Except Fault (Option Item) := do
  let keep ← match filter with
    | some predicate => predicate.holds item
    | none => pure true
  if keep then return some (← Expression.projectItem item request.projection request.bindings)
  else return none

def page (table : StoredTable) (candidates : List Item) (request : PageRequest) :
    Except Fault Page := do
  let following ← startAfter candidates request.start
  let evaluated := match request.limit with
    | some limit => following.take limit.toNat
    | none => following
  let lastKey := match evaluated.getLast? with
    | some last =>
      if evaluated.length < following.length then some (table.pageKey request.index last) else none
    | none => none
  let filter ← request.filter.mapM (Expression.Predicate.parse request.bindings)
  let items ← evaluated.mapM (readItem filter request)
  return ⟨items.filterMap id, evaluated.length, lastKey⟩

/-- The items that a key condition selects, in the order of the range key. -/
def select (table : StoredTable) (keys : KeyNames) (condition : Expression.Predicate)
    (forward : Bool) : Except Fault (List Item) := do
  let selected ← (table.items.filter (hasAllKeys keys)).filterM fun item => condition.holds item
  let sorted := match keys.range with
    | some range => sortItems (rangePrecedes range) selected
    | none => selected
  return if forward then sorted else sorted.reverse

def query (table : StoredTable) (keyCondition : Option String) (forward : Bool)
    (request : PageRequest) : Except Fault Page := do
  let keys ← table.indexKeys request.index
  match keyCondition with
  | none => throw .keyConditionRequired
  | some expression =>
    let condition ← Expression.Predicate.parse request.bindings expression
    table.page (← table.select keys condition forward) request

/-- The items of one of several segments, which divide the items of the table by position. -/
def segment (table : StoredTable) (keys : KeyNames) (segment total : Nat) : List Item :=
  (table.items.zipIdx.filter fun (item, position) =>
    position % total = segment && hasAllKeys keys item).map Prod.fst

def scan (table : StoredTable) (segment total : Option Int) (request : PageRequest) :
    Except Fault Page := do
  let keys ← table.indexKeys request.index
  let total := (max (total.getD 1) 1).toNat
  table.page (table.segment keys (segment.getD 0).toNat total) request

end StoredTable

end RecordStore
