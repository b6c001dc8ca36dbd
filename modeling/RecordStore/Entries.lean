/-!
# Keyed entries

Lists of named entries, the common representation of stored items, maps and records. A list is
kept in one of two orders: `insert` keeps the names ascending, so that equal contents are equal
lists, and `put` keeps the order in which the names first came.
-/

namespace RecordStore.Entries

variable {α β : Type}

def find? (entries : List (String × α)) (name : String) : Option α :=
  match entries with
  | [] => none
  | (key, value) :: rest => if key = name then some value else find? rest name

def contains (entries : List (String × α)) (name : String) : Bool :=
  (find? entries name).isSome

/-- Binds a name, keeping the names ascending. -/
def insert (entries : List (String × α)) (name : String) (value : α) : List (String × α) :=
  match entries with
  | [] => [(name, value)]
  | (key, held) :: rest =>
    if name < key then (name, value) :: (key, held) :: rest
    else if key = name then (name, value) :: rest
    else (key, held) :: insert rest name value

/-- Binds a name in its place, or at the end when it is new. -/
def put (entries : List (String × α)) (name : String) (value : α) : List (String × α) :=
  match entries with
  | [] => [(name, value)]
  | (key, held) :: rest =>
    if key = name then (name, value) :: rest else (key, held) :: put rest name value

def erase (entries : List (String × α)) (name : String) : List (String × α) :=
  match entries with
  | [] => []
  | (key, held) :: rest =>
    if key = name then erase rest name else (key, held) :: erase rest name

/-- The entries in ascending order of their names, the last one of a repeated name winning. -/
def sorted (entries : List (String × α)) : List (String × α) :=
  entries.foldl (fun held entry => insert held entry.1 entry.2) []

def names (entries : List (String × α)) : List String :=
  entries.map Prod.fst

/-- The number of items under all names. -/
def count : List (String × List α) → Nat
  | [] => 0
  | (_, items) :: rest => items.length + count rest

/-! ### Views -/

@[simp] theorem find?_nil (name : String) : find? ([] : List (String × α)) name = none := rfl

theorem find?_cons (key : String) (value : α) (rest : List (String × α)) (name : String) :
    find? ((key, value) :: rest) name = if key = name then some value else find? rest name := rfl

theorem find?_insert (entries : List (String × α)) (name : String) (value : α) (other : String) :
    find? (insert entries name value) other =
      if name = other then some value else find? entries other := by
  induction entries with
  | nil => simp [insert, find?]
  | cons entry rest ih =>
    obtain ⟨key, held⟩ := entry
    unfold insert
    split
    · simp [find?]
    · split
      · rename_i same
        subst same
        by_cases equal : key = other <;> simp [find?, equal]
      · rename_i different
        by_cases equal : key = other
        · have : name ≠ other := fun h => different (equal.trans h.symm)
          simp [find?, equal, this]
        · simp [find?, equal, ih]

theorem find?_put (entries : List (String × α)) (name : String) (value : α) (other : String) :
    find? (put entries name value) other =
      if name = other then some value else find? entries other := by
  induction entries with
  | nil => simp [put, find?]
  | cons entry rest ih =>
    obtain ⟨key, held⟩ := entry
    unfold put
    split
    · rename_i same
      subst same
      by_cases equal : key = other <;> simp [find?, equal]
    · rename_i different
      by_cases equal : key = other
      · have : name ≠ other := fun h => different (equal.trans h.symm)
        simp [find?, equal, this]
      · simp [find?, equal, ih]

theorem find?_erase (entries : List (String × α)) (name other : String) :
    find? (erase entries name) other = if name = other then none else find? entries other := by
  induction entries with
  | nil => simp [erase, find?]
  | cons entry rest ih =>
    obtain ⟨key, held⟩ := entry
    unfold erase
    split
    · rename_i same
      subst same
      by_cases equal : key = other
      · simpa [equal] using ih
      · simp [find?, equal, ih]
    · rename_i different
      by_cases equal : key = other
      · have : name ≠ other := fun h => different (equal.trans h.symm)
        simp [find?, equal, this]
      · simp [find?, equal, ih]

end RecordStore.Entries
