import RecordStore.Proofs.Item

/-!
# Attributes at paths

What is held at a place is an attribute or nothing. A path leads from what an item holds, through
maps, to another such place, and a write there puts an attribute in or takes it out. Writes at paths
of which neither begins with the other do not meet: each reads the same with the other one made
before it, and they can be made in any order.
-/

namespace RecordStore

/-! ### Paths that meet -/

/-- One of two paths begins with the other: they are equal, or one is above the other. -/
def Overlap (left right : List String) : Prop :=
  left <+: right ∨ right <+: left

namespace Overlap

variable {left right : List String}

instance : Decidable (Overlap left right) :=
  inferInstanceAs (Decidable (_ ∨ _))

theorem symm (hoverlap : Overlap left right) : Overlap right left :=
  Or.symm hoverlap

theorem nil_left (path : List String) : Overlap [] path :=
  .inl List.nil_prefix

theorem nil_right (path : List String) : Overlap path [] :=
  .inr List.nil_prefix

@[simp] theorem cons_cons {first second : String} :
    Overlap (first :: left) (second :: right) ↔ first = second ∧ Overlap left right := by
  simp only [Overlap, List.cons_prefix_cons]
  constructor
  · rintro (⟨hsame, hextends⟩ | ⟨hsame, hextends⟩)
    · exact ⟨hsame, .inl hextends⟩
    · exact ⟨hsame.symm, .inr hextends⟩
  · rintro ⟨hsame, hextends | hextends⟩
    · exact .inl ⟨hsame, hextends⟩
    · exact .inr ⟨hsame.symm, hextends⟩

end Overlap

/-! ### One name of an item -/

namespace Item

variable {item : Item} {name other : String}

/-- The item with an attribute under a name, or with nothing under it. -/
def put (item : Item) (name : String) : Option Attribute → Item
  | some value => set item name value
  | none => erase item name

theorem get?_put (item : Item) (name : String) (cell : Option Attribute) (other : String) :
    get? (put item name cell) other = if name = other then cell else get? item other := by
  cases cell with
  | some value => exact get?_set item name value other
  | none => exact get?_erase item name other

@[simp] theorem get?_put_self (item : Item) (name : String) (cell : Option Attribute) :
    get? (put item name cell) name = cell := by
  rw [get?_put, if_pos rfl]

theorem get?_put_of_ne (item : Item) (cell : Option Attribute) (hne : name ≠ other) :
    get? (put item name cell) other = get? item other := by
  rw [get?_put, if_neg hne]

theorem ascending_put (hascending : Entries.Ascending item) (name : String)
    (cell : Option Attribute) : Entries.Ascending (put item name cell) := by
  cases cell with
  | some value => exact hascending.insert name value
  | none => exact ascending_erase hascending name

theorem put_get? (hascending : Entries.Ascending item) (name : String) :
    put item name (get? item name) = item := by
  refine (ascending_put hascending name _).ext hascending fun other => ?_
  change get? (put item name (get? item name)) other = get? item other
  rw [get?_put]
  split
  · rename_i hname
    rw [hname]
  · rfl

theorem put_comm (hascending : Entries.Ascending item) (hne : name ≠ other)
    (first second : Option Attribute) :
    put (put item name first) other second = put (put item other second) name first := by
  refine (ascending_put (ascending_put hascending _ _) _ _).ext
    (ascending_put (ascending_put hascending _ _) _ _) fun asked => ?_
  change get? (put (put item name first) other second) asked =
    get? (put (put item other second) name first) asked
  by_cases hname : name = asked
  · subst hname
    rw [get?_put_of_ne _ _ hne.symm, get?_put_self, get?_put_self]
  · by_cases hother : other = asked
    · subst hother
      rw [get?_put_self, get?_put_of_ne _ _ hne, get?_put_self]
    · rw [get?_put_of_ne _ _ hother, get?_put_of_ne _ _ hname, get?_put_of_ne _ _ hname,
        get?_put_of_ne _ _ hother]

theorem put_put (hascending : Entries.Ascending item) (name : String)
    (first second : Option Attribute) :
    put (put item name first) name second = put item name second := by
  refine (ascending_put (ascending_put hascending _ _) _ _).ext
    (ascending_put hascending _ _) fun asked => ?_
  change get? (put (put item name first) name second) asked = get? (put item name second) asked
  by_cases hname : name = asked
  · rw [hname, get?_put_self, get?_put_self]
  · rw [get?_put_of_ne _ _ hname, get?_put_of_ne _ _ hname, get?_put_of_ne _ _ hname]

end Item

/-! ### From one place to another -/

namespace Cell

/-- What a path leads to. -/
def read : Option Attribute → List String → Option Attribute
  | cell, [] => cell
  | some (.map entries), name :: rest => read (Item.get? entries name) rest
  | _, _ :: _ => none

/-- The cell once a path leads to what is new; none when the path does not lead through maps to
where an attribute could be put. -/
def write (new : Option Attribute) : Option Attribute → List String → Option (Option Attribute)
  | _, [] => some new
  | some (.map entries), name :: rest =>
    (write new (Item.get? entries name) rest).map fun inner =>
      some (.map (Item.put entries name inner))
  | cell, _ :: _ => if new = none then some cell else none

/-- The names of every map on a path ascend. -/
def AscendsAlong : Option Attribute → List String → Prop
  | _, [] => True
  | some (.map entries), name :: rest =>
    Entries.Ascending entries ∧ AscendsAlong (Item.get? entries name) rest
  | _, _ :: _ => True

variable {new next cell between later last : Option Attribute} {entries : Item} {name : String}
  {path other rest : List String}

@[simp] theorem read_nil (cell : Option Attribute) : read cell [] = cell := by
  rw [read]

@[simp] theorem read_map (entries : Item) (name : String) (rest : List String) :
    read (some (.map entries)) (name :: rest) = read (Item.get? entries name) rest := rfl

theorem read_of_not_map (hcell : ∀ entries, cell ≠ some (.map entries)) :
    read cell (name :: rest) = none := by
  rw [read]
  exact hcell

/-- A path leads on from where its beginning leads. -/
theorem read_append (cell : Option Attribute) (first second : List String) :
    read cell (first ++ second) = read (read cell first) second := by
  induction first generalizing cell with
  | nil => rw [List.nil_append, read_nil]
  | cons name rest ih =>
    by_cases hcell : ∃ entries, cell = some (.map entries)
    · obtain ⟨entries, rfl⟩ := hcell
      rw [List.cons_append, read_map, read_map, ih]
    · rw [not_exists] at hcell
      rw [List.cons_append, read_of_not_map hcell, read_of_not_map hcell]
      cases second <;> rfl

@[simp] theorem write_nil (new cell : Option Attribute) : write new cell [] = some new := by
  rw [write]

theorem write_of_not_map (hcell : ∀ entries, cell ≠ some (.map entries)) :
    write new cell (name :: rest) = if new = none then some cell else none := by
  rw [write]
  exact hcell

/-- A write below a map is one to what the map holds; below anything else nothing can be put, and
nothing is there to be taken out. -/
theorem write_cons_eq_some_iff : write new cell (name :: rest) = some later ↔
    (∃ entries inner, cell = some (.map entries) ∧
      write new (Item.get? entries name) rest = some inner ∧
      later = some (.map (Item.put entries name inner))) ∨
    ((∀ entries, cell ≠ some (.map entries)) ∧ new = none ∧ later = cell) := by
  by_cases hcell : ∃ entries, cell = some (.map entries)
  · obtain ⟨entries, rfl⟩ := hcell
    rw [write, Option.map_eq_some_iff]
    constructor
    · rintro ⟨inner, hinner, rfl⟩
      exact .inl ⟨entries, inner, rfl, hinner, rfl⟩
    · rintro (⟨_, inner, hentries, hinner, rfl⟩ | ⟨hnotMap, _⟩)
      · cases hentries
        exact ⟨inner, hinner, rfl⟩
      · exact absurd rfl (hnotMap entries)
  · rw [not_exists] at hcell
    rw [write_of_not_map hcell]
    constructor
    · intro hwrite
      split at hwrite
      · rename_i hnew
        exact .inr ⟨hcell, hnew, (Option.some.inj hwrite).symm⟩
      · cases hwrite
    · rintro (⟨entries, _, hentries, _⟩ | ⟨_, rfl, rfl⟩)
      · exact absurd hentries (hcell entries)
      · rfl

/-- A map stays one when something is written below it. -/
theorem map_of_write (hpath : path ≠ [])
    (hwrite : write new (some (.map entries)) path = some later) :
    ∃ others, later = some (.map others) := by
  obtain ⟨name, rest, rfl⟩ := List.exists_cons_of_ne_nil hpath
  rcases write_cons_eq_some_iff.mp hwrite with ⟨_, inner, _, _, rfl⟩ | ⟨hnotMap, _⟩
  · exact ⟨_, rfl⟩
  · exact absurd rfl (hnotMap entries)

theorem read_of_write (hwrite : write new cell path = some later) : read later path = new := by
  induction path generalizing cell later with
  | nil =>
    rw [write_nil] at hwrite
    rw [read_nil, Option.some.inj hwrite]
  | cons name rest ih =>
    rcases write_cons_eq_some_iff.mp hwrite with ⟨entries, inner, _, hinner, rfl⟩ |
      ⟨hcell, rfl, rfl⟩
    · rw [read_map, Item.get?_put_self]
      exact ih hinner
    · exact read_of_not_map hcell

/-- A write is not seen at a path that it does not meet. -/
theorem read_of_write_of_not_overlap (hpaths : ¬ Overlap path other)
    (hwrite : write new cell path = some later) : read later other = read cell other := by
  induction path generalizing cell later other with
  | nil => exact absurd (Overlap.nil_left other) hpaths
  | cons name rest ih =>
    cases other with
    | nil => exact absurd (Overlap.nil_right _) hpaths
    | cons first below =>
      rcases write_cons_eq_some_iff.mp hwrite with ⟨entries, inner, rfl, hinner, rfl⟩ |
        ⟨_, _, rfl⟩
      · rw [read_map, read_map]
        by_cases hname : name = first
        · subst hname
          rw [Item.get?_put_self]
          exact ih (fun hbelow => hpaths (Overlap.cons_cons.mpr ⟨rfl, hbelow⟩)) hinner
        · rw [Item.get?_put_of_ne _ _ hname]
      · rfl

theorem ascendsAlong_of_write (hpaths : ¬ Overlap path other) (hcell : AscendsAlong cell other)
    (hwrite : write new cell path = some later) : AscendsAlong later other := by
  induction path generalizing cell later other with
  | nil => exact absurd (Overlap.nil_left other) hpaths
  | cons name rest ih =>
    cases other with
    | nil => exact absurd (Overlap.nil_right _) hpaths
    | cons first below =>
      rcases write_cons_eq_some_iff.mp hwrite with ⟨entries, inner, rfl, hinner, rfl⟩ |
        ⟨_, _, rfl⟩
      · obtain ⟨hentries, hbelow⟩ := hcell
        refine ⟨Item.ascending_put hentries name inner, ?_⟩
        by_cases hname : name = first
        · subst hname
          rw [Item.get?_put_self]
          exact ih (fun hbelow => hpaths (Overlap.cons_cons.mpr ⟨rfl, hbelow⟩)) hbelow hinner
        · rw [Item.get?_put_of_ne _ _ hname]
          exact hbelow
      · exact hcell

/-- Writing what is there changes nothing. -/
theorem write_read (hcell : AscendsAlong cell path) : write (read cell path) cell path = some cell := by
  induction path generalizing cell with
  | nil => rw [write_nil, read_nil]
  | cons name rest ih =>
    rw [write_cons_eq_some_iff]
    by_cases hmap : ∃ entries, cell = some (.map entries)
    · obtain ⟨entries, rfl⟩ := hmap
      obtain ⟨hentries, hbelow⟩ := hcell
      refine .inl ⟨entries, Item.get? entries name, rfl, ih hbelow, ?_⟩
      rw [Item.put_get? hentries]
    · rw [not_exists] at hmap
      exact .inr ⟨hmap, read_of_not_map hmap, rfl⟩

/-- Two writes at paths that do not meet can be made the other way around. -/
theorem write_swap (hpaths : ¬ Overlap path other) (hcell : AscendsAlong cell path)
    (hfirst : write new cell path = some later) (hsecond : write next later other = some last) :
    ∃ between, write next cell other = some between ∧ write new between path = some last := by
  induction path generalizing cell later last other with
  | nil => exact absurd (Overlap.nil_left other) hpaths
  | cons name rest ih =>
    cases other with
    | nil => exact absurd (Overlap.nil_right _) hpaths
    | cons first below =>
      rcases write_cons_eq_some_iff.mp hfirst with ⟨entries, inner, rfl, hinner, rfl⟩ |
        ⟨hnotMap, rfl, rfl⟩
      · obtain ⟨hentries, hbelow⟩ := hcell
        rcases write_cons_eq_some_iff.mp hsecond with ⟨_, left, hmap, hleft, rfl⟩ | ⟨hnotMap, _⟩
        · cases hmap
          by_cases hname : name = first
          · subst hname
            rw [Item.get?_put_self] at hleft
            obtain ⟨between, hnext, hnew⟩ :=
              ih (fun hbelow => hpaths (Overlap.cons_cons.mpr ⟨rfl, hbelow⟩)) hbelow hinner hleft
            refine ⟨some (.map (Item.put entries name between)),
              write_cons_eq_some_iff.mpr (.inl ⟨entries, between, rfl, hnext, rfl⟩),
              write_cons_eq_some_iff.mpr (.inl ⟨_, left, rfl, ?_, ?_⟩)⟩
            · rw [Item.get?_put_self]
              exact hnew
            · rw [Item.put_put hentries, Item.put_put hentries]
          · rw [Item.get?_put_of_ne _ _ hname] at hleft
            refine ⟨some (.map (Item.put entries first left)),
              write_cons_eq_some_iff.mpr (.inl ⟨entries, left, rfl, hleft, rfl⟩),
              write_cons_eq_some_iff.mpr (.inl ⟨_, inner, rfl, ?_, ?_⟩)⟩
            · rw [Item.get?_put_of_ne _ _ (Ne.symm hname)]
              exact hinner
            · rw [Item.put_comm hentries hname]
        · exact absurd rfl (hnotMap _)
      · rcases write_cons_eq_some_iff.mp hsecond with ⟨entries, _, hmap, _⟩ | ⟨_, rfl, rfl⟩
        · exact absurd hmap (hnotMap entries)
        · exact ⟨_, hsecond, hfirst⟩

end Cell

/-! ### Within an item -/

namespace Item

variable {item later : Item} {name : String} {path rest : List String} {new : Option Attribute}

/-- An item stands for what it holds under each name: its names ascend, and so do those of every map
that a path leads to. -/
inductive Ordered : Item → Prop
  | intro {item : Item} (ascending : Entries.Ascending item)
      (within : ∀ name entries, get? item name = some (.map entries) → Ordered entries) :
      Ordered item

theorem Ordered.ascendsAlong (hitem : Ordered item) (path : List String) :
    Cell.AscendsAlong (some (.map item)) path := by
  induction path generalizing item with
  | nil => trivial
  | cons name rest ih =>
    obtain ⟨hascending, hwithin⟩ := hitem
    refine ⟨hascending, ?_⟩
    by_cases hmap : ∃ entries, get? item name = some (.map entries)
    · obtain ⟨entries, hget⟩ := hmap
      rw [hget]
      exact ih (hwithin name entries hget)
    · rw [not_exists] at hmap
      cases rest with
      | nil => trivial
      | cons first below =>
        rw [Cell.AscendsAlong]
        · trivial
        · exact hmap

theorem resolve?_eq_read (item : Item) (name : String) (rest : List String) :
    resolve? item (name :: rest) = Cell.read (some (.map item)) (name :: rest) := by
  induction rest generalizing item name with
  | nil => rw [Cell.read_map, Cell.read_nil, resolve?]
  | cons next rest ih =>
    rw [Cell.read_map, resolve?]
    split
    · rename_i entries hget
      rw [hget]
      exact ih entries next
    · rename_i hmap
      exact (Cell.read_of_not_map hmap).symm

end Item

end RecordStore
