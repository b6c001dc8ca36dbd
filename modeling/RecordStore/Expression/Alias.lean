import RecordStore.Error.Basic

/-!
# Placeholders

Expressions name attributes by `#` placeholders and values by `:` placeholders. A path segment keeps
one placeholder, and every value gets a new one. Placeholders carry the stem of their generator, so
that generators with different stems can be merged.
-/

namespace RecordStore.Expression

structure Aliases where
  stem : String
  /-- The segments that have a placeholder, in the order in which they got one. -/
  segments : List String
  /-- The names behind placeholders, ascending by placeholder. -/
  names : List (String × String)
  /-- The values behind placeholders. -/
  values : Item
  /-- The number of the next value placeholder. -/
  next : Nat
  deriving DecidableEq, Inhabited

namespace Aliases

def empty (stem : String) : Aliases :=
  ⟨stem, [], [], [], 0⟩

def namePlaceholder (stem : String) (index : Nat) : String :=
  "#" ++ stem ++ "n" ++ toString index

def valuePlaceholder (stem : String) (index : Nat) : String :=
  ":" ++ stem ++ "v" ++ toString index

/-- The placeholder of a segment. -/
def name (segment : String) : StateM Aliases String := fun aliases =>
  match aliases.segments.idxOf? segment with
  | some index => (namePlaceholder aliases.stem index, aliases)
  | none =>
    let placeholder := namePlaceholder aliases.stem aliases.segments.length
    (placeholder, { aliases with
      segments := aliases.segments ++ [segment]
      names := Entries.insert aliases.names placeholder segment })

/-- The placeholders of a path, joined by points. -/
def path (segments : List String) : StateM Aliases String := do
  return ".".intercalate (← segments.mapM name)

/-- A new placeholder for a value. -/
def value (bound : Attribute) : StateM Aliases String := fun aliases =>
  let placeholder := valuePlaceholder aliases.stem aliases.next
  (placeholder, { aliases with
    values := Item.set aliases.values placeholder bound
    next := aliases.next + 1 })

/-- Takes over a binding, which must be new. A binding that is not new is replaced all the same. -/
def adopt {α : Type} (entry : String × α) : ExceptT Error (StateM (List (String × α))) Unit := do
  let held ← get
  set (Entries.insert held entry.1 entry.2)
  if Entries.contains held entry.1 then throw (.contract (.repeatedPlaceholder entry.1))

/-- Takes over the placeholders of another generator, which must have another stem. -/
def merge (other : Aliases) : ExceptT Error (StateM Aliases) Unit := fun aliases =>
  if other.stem = aliases.stem then (.error (.contract (.sharedStem aliases.stem)), aliases)
  else
    let (outcome, names) := (other.names.forM adopt).run.run aliases.names
    let aliases := { aliases with names }
    match outcome with
    | .error error => (.error error, aliases)
    | .ok () =>
      let (outcome, values) := (other.values.forM adopt).run.run aliases.values
      (outcome, { aliases with values })

end Aliases

end RecordStore.Expression
