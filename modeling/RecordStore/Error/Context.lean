import RecordStore.Attribute.Message

/-!
# The request an error belongs to

Errors of a store carry what was asked of it, so that a failing request can be repeated.
-/

namespace RecordStore

structure RequestContext where
  table : String
  key : Option Item
  update : Option String
  condition : Option String
  names : Option (List (String × String))
  values : Option Item
  deriving DecidableEq, Inhabited

namespace RequestContext

/-- A context that names the table only. -/
def ofTable (table : String) : RequestContext :=
  ⟨table, none, none, none, none, none⟩

/-- A context that names the tables of a request, each once and in order. -/
def ofTables (tables : List String) : RequestContext :=
  ofTable (",".intercalate (Entries.names (Entries.sorted (tables.map fun table => (table, ())))))

/-- The context with a key, unless it has one. -/
def withKey (context : RequestContext) (key : Item) : RequestContext :=
  { context with key := context.key <|> some key }

private def namesText (names : List (String × String)) : String :=
  "\x7b" ++ ", ".intercalate (names.map fun (placeholder, name) =>
    Text.quote placeholder ++ ": " ++ Text.quote name) ++ "\x7d"

def text (context : RequestContext) : String :=
  let part {α : Type} (value : Option α) (render : α → String) : String :=
    (value.map render).getD ""
  "table `" ++ context.table ++ "`" ++
    part context.key (fun key => ", key " ++ Item.text key) ++
    part context.update (fun expression => ", update `" ++ expression ++ "`") ++
    part context.condition (fun expression => ", condition `" ++ expression ++ "`") ++
    part context.names (fun names => ", names " ++ namesText names) ++
    part context.values (fun values => ", values " ++ Item.text values)

end RequestContext

end RecordStore
