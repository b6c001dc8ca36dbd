import RecordStore.Attribute.Basic

/-!
# Attributes within maps

A path names an attribute of an item, or an entry of a map within it.
-/

namespace RecordStore.Item

/-- The attribute that a path leads to. -/
def resolve? (item : Item) : (path : List String) → Option Attribute
  | [] => none
  | [name] => get? item name
  | name :: next :: rest =>
    match get? item name with
    | some (.map entries) => resolve? entries (next :: rest)
    | _ => none

/-- The item with the attribute at a path set, none when the path does not lead through maps. -/
def assign? (item : Item) (path : List String) (value : Attribute) : Option Item :=
  match path with
  | [] => none
  | [name] => some (set item name value)
  | name :: next :: rest =>
    match get? item name with
    | some (.map entries) =>
      (assign? entries (next :: rest) value).map fun entries => set item name (.map entries)
    | _ => none

/-- The item without the attribute at a path. -/
def remove (item : Item) (path : List String) : Item :=
  match path with
  | [] => item
  | [name] => erase item name
  | name :: next :: rest =>
    match get? item name with
    | some (.map entries) => set item name (.map (remove entries (next :: rest)))
    | _ => item

/-- The item with an attribute set at a path, where missing maps are made and anything else in the
way is kept. -/
def graft (item : Item) (path : List String) (value : Attribute) : Item :=
  match path with
  | [] => item
  | [name] => set item name value
  | name :: next :: rest =>
    match get? item name with
    | some (.map entries) => set item name (.map (graft entries (next :: rest) value))
    | some _ => item
    | none => set item name (.map (graft [] (next :: rest) value))

/-- What an item holds at the given paths. -/
def restrict (item : Item) (paths : List (List String)) : Item :=
  paths.foldl (fun kept path =>
    match resolve? item path with
    | some value => graft kept path value
    | none => kept) []

end RecordStore.Item
