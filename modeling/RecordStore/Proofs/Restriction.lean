import RecordStore.Proofs.Cell
import RecordStore.Proofs.Codec.Projection

/-!
# Restricting items to paths

What an item is restricted to is grafted path by path into a growing item. Whatever the order of the
paths, at a path the result holds what the item holds when one of them is equal to it or above it, a
map of what was grafted when some are below it, and nothing otherwise.
-/

namespace RecordStore

/-! ### Entries of cells -/

namespace Cell

variable {cell : Option Attribute} {path : List String}

/-- The entries of a map, none of anything else. -/
def entries : Option Attribute → Item
  | some (.map entries) => entries
  | _ => []

theorem entries_of_not_map (hcell : ∀ entries, cell ≠ some (.map entries)) : entries cell = [] := by
  unfold entries
  split
  · exact absurd rfl (hcell _)
  · rfl

/-- Below a cell there is what is below its entries. -/
theorem read_entries (hpath : path ≠ []) :
    read (some (.map (entries cell))) path = read cell path := by
  obtain ⟨name, rest, rfl⟩ := List.exists_cons_of_ne_nil hpath
  by_cases hcell : ∃ entries, cell = some (.map entries)
  · obtain ⟨entries, rfl⟩ := hcell
    rfl
  · rw [not_exists] at hcell
    rw [entries_of_not_map hcell, read_of_not_map hcell, read_map]
    cases rest <;> rfl

theorem entries_read_entries (cell : Option Attribute) (path : List String) :
    entries (read (some (.map (entries cell))) path) = entries (read cell path) := by
  by_cases hpath : path = []
  · subst hpath
    rw [read_nil, read_nil]
    rfl
  · rw [read_entries hpath]

end Cell

namespace Item

open Attribute (Part)

variable {item kept : Item} {value : Attribute} {name : String} {path rest below above : List String}

theorem resolve?_eq_read_of_ne_nil (item : Item) (hpath : path ≠ []) :
    resolve? item path = Cell.read (some (.map item)) path := by
  obtain ⟨name, rest, rfl⟩ := List.exists_cons_of_ne_nil hpath
  exact resolve?_eq_read item name rest

theorem ne_nil_of_resolve? (hresolve : resolve? item path = some value) : path ≠ [] := by
  rintro rfl
  cases hresolve

theorem resolve?_cons_of_ne_nil (hrest : rest ≠ [])
    (hresolve : resolve? item (name :: rest) = some value) :
    ∃ entries, get? item name = some (.map entries) ∧ resolve? entries rest = some value := by
  obtain ⟨next, more, rfl⟩ := List.exists_cons_of_ne_nil hrest
  rw [resolve?] at hresolve
  split at hresolve
  · rename_i entries hentries
    exact ⟨entries, hentries, hresolve⟩
  · cases hresolve

/-! ### Grafting into a part -/

/-- In a part of an item nothing is in the way of what the item holds. -/
theorem graft_cons {entries : Item} (hpart : Part (.map kept) (.map item))
    (hentries : get? item name = some (.map entries)) (hrest : rest ≠ []) :
    Part (.map (Cell.entries (get? kept name))) (.map entries) ∧
      graft kept (name :: rest) value =
        set kept name (.map (graft (Cell.entries (get? kept name)) rest value)) := by
  obtain ⟨next, more, rfl⟩ := List.exists_cons_of_ne_nil hrest
  rw [graft]
  cases hkept : get? kept name with
  | none => exact ⟨part_nil entries, rfl⟩
  | some held =>
    obtain ⟨found, hfound, hwithin⟩ := part_of_get? hpart hkept
    cases hentries.symm.trans hfound
    cases hwithin with
    | self => exact ⟨.self _, rfl⟩
    | map other hmem hfind hparts => exact ⟨.map other hmem hfind hparts, rfl⟩

/-- At the path and below it, there is what was grafted. -/
theorem read_graft_below (hpart : Part (.map kept) (.map item))
    (hresolve : resolve? item path = some value) (below : List String) :
    Cell.read (some (.map (graft kept path value))) (path ++ below) =
      Cell.read (some value) below := by
  induction path generalizing kept item with
  | nil => cases hresolve
  | cons name rest ih =>
    by_cases hrest : rest = []
    · subst hrest
      rw [graft, List.singleton_append, Cell.read_map, get?_set_self]
    · obtain ⟨entries, hentries, hresolve⟩ := resolve?_cons_of_ne_nil hrest hresolve
      obtain ⟨hwithin, hgraft⟩ := @graft_cons item kept value name rest entries hpart hentries hrest
      rw [hgraft, List.cons_append, Cell.read_map, get?_set_self]
      exact ih hwithin hresolve

/-- Above the path, there is the map that was there with the rest of the path grafted into it. -/
theorem read_graft_above (hpart : Part (.map kept) (.map item)) (hrest : rest ≠ [])
    (hresolve : resolve? item (above ++ rest) = some value) :
    Cell.read (some (.map (graft kept (above ++ rest) value))) above =
      some (.map (graft (Cell.entries (Cell.read (some (.map kept)) above)) rest value)) := by
  induction above generalizing kept item with
  | nil => rfl
  | cons name more ih =>
    have hmore : more ++ rest ≠ [] := List.append_ne_nil_of_right_ne_nil more hrest
    obtain ⟨entries, hentries, hresolve⟩ := resolve?_cons_of_ne_nil hmore hresolve
    obtain ⟨hwithin, hgraft⟩ :=
      @graft_cons item kept value name (more ++ rest) entries hpart hentries hmore
    rw [List.cons_append, hgraft, Cell.read_map, get?_set_self, ih hwithin hresolve,
      Cell.entries_read_entries, Cell.read_map]

/-- A path that does not meet the other one does not see what is grafted there. -/
theorem read_graft_of_not_overlap (hpart : Part (.map kept) (.map item))
    (hresolve : resolve? item path = some value) (hpaths : ¬ Overlap path below) :
    Cell.read (some (.map (graft kept path value))) below = Cell.read (some (.map kept)) below := by
  induction path generalizing kept item below with
  | nil => cases hresolve
  | cons name rest ih =>
    cases below with
    | nil => exact absurd (Overlap.nil_right _) hpaths
    | cons first more =>
      rw [Overlap.cons_cons, not_and] at hpaths
      by_cases hrest : rest = []
      · subst hrest
        rw [graft, Cell.read_map, Cell.read_map, get?_set_of_ne _ _ fun hname => ?_]
        exact hpaths hname (Overlap.nil_left more)
      · obtain ⟨entries, hentries, hresolve⟩ := resolve?_cons_of_ne_nil hrest hresolve
        obtain ⟨hwithin, hgraft⟩ := @graft_cons item kept value name rest entries hpart hentries hrest
        rw [hgraft, Cell.read_map, Cell.read_map]
        by_cases hname : name = first
        · subst hname
          have hmore : more ≠ [] := by
            rintro rfl
            exact hpaths rfl (Overlap.nil_right rest)
          rw [get?_set_self, ih hwithin hresolve (hpaths rfl), Cell.read_entries hmore]
        · rw [get?_set_of_ne _ _ hname]

/-! ### Ordered items -/

theorem Ordered.set (hitem : Ordered item) (name : String)
    (hvalue : ∀ entries, value = .map entries → Ordered entries) : Ordered (set item name value) := by
  obtain ⟨hascending, hwithin⟩ := hitem
  refine .intro (hascending.insert name value) fun other entries hget => ?_
  rw [get?_set] at hget
  split at hget
  · cases hget
    exact hvalue entries rfl
  · exact hwithin other entries hget

theorem Ordered.nil : Ordered [] :=
  .intro .nil fun _ _ hget => nomatch hget

theorem Ordered.graft (hkept : Ordered kept)
    (hvalue : ∀ entries, value = .map entries → Ordered entries) :
    Ordered (graft kept path value) := by
  induction path generalizing kept with
  | nil => exact hkept
  | cons name rest ih =>
    cases rest with
    | nil => exact hkept.set name hvalue
    | cons next more =>
      rw [Item.graft]
      split
      · rename_i entries hget
        obtain ⟨_, hwithin⟩ := id hkept
        refine hkept.set name fun later hlater => ?_
        cases hlater
        exact ih (hwithin name entries hget)
      · exact hkept
      · refine hkept.set name fun later hlater => ?_
        cases hlater
        exact ih .nil

theorem Ordered.resolve? (hitem : Ordered item) {entries : Item}
    (hresolve : resolve? item path = some (.map entries)) : Ordered entries := by
  induction path generalizing item with
  | nil => cases hresolve
  | cons name rest ih =>
    obtain ⟨_, hwithin⟩ := hitem
    by_cases hrest : rest = []
    · subst hrest
      exact hwithin name entries hresolve
    · obtain ⟨inner, hinner, hresolve⟩ := resolve?_cons_of_ne_nil hrest hresolve
      exact ih (hwithin name inner hinner) hresolve

/-- Grafting into an item what it holds changes nothing. -/
theorem Ordered.graft_self (hitem : Ordered item) (hresolve : Item.resolve? item path = some value) :
    Item.graft item path value = item := by
  induction path generalizing item with
  | nil => rfl
  | cons name rest ih =>
    obtain ⟨hascending, hwithin⟩ := hitem
    have hset : ∀ held, get? item name = some held → Item.set item name held = item := by
      intro held hheld
      have hput := put_get? hascending name
      rwa [hheld] at hput
    by_cases hrest : rest = []
    · subst hrest
      exact hset value hresolve
    · obtain ⟨entries, hentries, hresolve⟩ := resolve?_cons_of_ne_nil hrest hresolve
      obtain ⟨_, hgraft⟩ := @graft_cons item item value name rest entries (.self _) hentries hrest
      rw [hgraft, hentries, Cell.entries, ih (hwithin name entries hentries) hresolve]
      exact hset _ hentries

/-- Ordered items are equal when at every path they hold the same, or each a map. -/
theorem Ordered.ext {left right : Item} (hleft : Ordered left) (hright : Ordered right)
    (hsame : ∀ path, Item.resolve? left path = Item.resolve? right path ∨
      ∃ first second, Item.resolve? left path = some (.map first) ∧
        Item.resolve? right path = some (.map second)) : left = right := by
  induction hleft generalizing right with
  | intro hascending hwithin ih =>
    obtain ⟨hrightAscending, hrightWithin⟩ := hright
    refine hascending.ext hrightAscending fun name => ?_
    rcases hsame [name] with hequal | ⟨first, second, hfirst, hsecond⟩
    · exact hequal
    · have hentries : first = second := by
        refine ih name first hfirst (hrightWithin name second hsecond) fun path => ?_
        by_cases hpath : path = []
        · subst hpath
          exact .inl rfl
        · have hbelow := hsame (name :: path)
          rw [resolve?_eq_read, resolve?_eq_read, Cell.read_map, Cell.read_map,
            show get? _ name = _ from hfirst, show get? _ name = _ from hsecond,
            ← resolve?_eq_read_of_ne_nil _ hpath, ← resolve?_eq_read_of_ne_nil _ hpath] at hbelow
          exact hbelow
      exact hfirst.trans (hentries ▸ hsecond.symm)

/-! ### Restrictions -/

/-- One of the paths, at which the item holds something. -/
def Locates (item : Item) (paths : List (List String)) (path : List String) : Prop :=
  path ∈ paths ∧ (Item.resolve? item path).isSome = true

/-- What is left of an item that is restricted to paths. At and below a path that locates something,
it is what the item holds. Only above such paths it is a map, of entries that lead to them. Anywhere
else it is nothing. -/
structure IsRestriction (item : Item) (paths : List (List String)) (projected : Item) : Prop where
  whole : ∀ path, item.Locates paths path → ∀ below, path <+: below →
    Item.resolve? projected below = Item.resolve? item below
  partly : ∀ path, item.Locates paths path → ∀ above, above ≠ [] → above <+: path →
    (∀ other, item.Locates paths other → ¬ other <+: above) →
    ∃ entries, Item.resolve? projected above = some (.map entries) ∧
      ∀ name, get? entries name ≠ none → ∃ other, item.Locates paths other ∧ above ++ [name] <+: other
  hidden : ∀ path, (∀ other, item.Locates paths other → ¬ Overlap other path) →
    Item.resolve? projected path = none

section Restrictions

variable {paths others : List (List String)} {projected : Item}

theorem Locates.ne_nil (hlocates : item.Locates paths path) : path ≠ [] := by
  obtain ⟨value, hresolve⟩ := Option.isSome_iff_exists.mp hlocates.2
  exact ne_nil_of_resolve? hresolve

theorem resolve?_append_singleton {entries : Item} (hpath : path ≠ [])
    (hentries : Item.resolve? item path = some (.map entries)) (name : String) :
    Item.resolve? item (path ++ [name]) = get? entries name := by
  rw [resolve?_eq_read_of_ne_nil _ (List.append_ne_nil_of_left_ne_nil hpath _), Cell.read_append,
    ← resolve?_eq_read_of_ne_nil _ hpath, hentries, Cell.read_map, Cell.read_nil]

/-- Above a path at which it holds something, an item holds a map. -/
theorem exists_map_of_resolve? (habove : above ≠ []) (hrest : rest ≠ [])
    (hresolve : Item.resolve? item (above ++ rest) = some value) :
    ∃ entries, Item.resolve? item above = some (.map entries) ∧
      Item.resolve? entries rest = some value := by
  rw [resolve?_eq_read_of_ne_nil _ (ne_nil_of_resolve? hresolve), Cell.read_append,
    ← resolve?_eq_read_of_ne_nil _ habove] at hresolve
  by_cases hmap : ∃ entries, Item.resolve? item above = some (.map entries)
  · obtain ⟨entries, hentries⟩ := hmap
    rw [hentries, ← resolve?_eq_read_of_ne_nil _ hrest] at hresolve
    exact ⟨entries, hentries, hresolve⟩
  · rw [not_exists] at hmap
    obtain ⟨name, more, rfl⟩ := List.exists_cons_of_ne_nil hrest
    rw [Cell.read_of_not_map hmap] at hresolve
    cases hresolve

/-- A path is strictly above another one when it is above it and not below. -/
theorem exists_rest_of_prefix (hbegins : above <+: path) (hnot : ¬ path <+: above) :
    ∃ rest, rest ≠ [] ∧ path = above ++ rest := by
  obtain ⟨rest, rfl⟩ := hbegins
  refine ⟨rest, ?_, rfl⟩
  rintro rfl
  exact hnot (by rw [List.append_nil])

namespace IsRestriction

/-- A restriction is one to whatever paths locate the same. -/
theorem congr (hrestriction : item.IsRestriction paths projected)
    (hsame : ∀ path, item.Locates others path ↔ item.Locates paths path) :
    item.IsRestriction others projected where
  whole path hpath := hrestriction.whole path ((hsame path).mp hpath)
  partly path hpath above habove hbegins hnone := by
    obtain ⟨entries, hentries, hnames⟩ := hrestriction.partly path ((hsame path).mp hpath) above
      habove hbegins fun other hother => hnone other ((hsame other).mpr hother)
    refine ⟨entries, hentries, fun name hname => ?_⟩
    obtain ⟨other, hother, hbelow⟩ := hnames name hname
    exact ⟨other, (hsame other).mpr hother, hbelow⟩
  hidden path hnone := hrestriction.hidden path fun other hother =>
    hnone other ((hsame other).mpr hother)

/-- That a map above the paths leads to them only, is no more than that the rest is hidden. -/
theorem of_map
    (whole : ∀ path, item.Locates paths path → ∀ below, path <+: below →
      Item.resolve? projected below = Item.resolve? item below)
    (partly : ∀ path, item.Locates paths path → ∀ above, above ≠ [] → above <+: path →
      (∀ other, item.Locates paths other → ¬ other <+: above) →
      ∃ entries, Item.resolve? projected above = some (.map entries))
    (hidden : ∀ path, (∀ other, item.Locates paths other → ¬ Overlap other path) →
      Item.resolve? projected path = none) : item.IsRestriction paths projected := by
  refine ⟨whole, fun path hpath above habove hbegins hnone => ?_, hidden⟩
  obtain ⟨entries, hentries⟩ := partly path hpath above habove hbegins hnone
  refine ⟨entries, hentries, fun name hname => ?_⟩
  rw [← resolve?_append_singleton habove hentries] at hname
  by_contra hnothing
  refine hname (hidden _ fun other hother hoverlap => ?_)
  rcases hoverlap with hbelow | habove
  · rcases List.prefix_concat_iff.mp hbelow with hsame | hbelow
    · exact hnothing ⟨other, hother, hsame ▸ List.prefix_rfl⟩
    · exact hnone other hother hbelow
  · exact hnothing ⟨other, hother, habove⟩

theorem nil (item : Item) : item.IsRestriction [] [] where
  whole path hpath := nomatch hpath.1
  partly path hpath := nomatch hpath.1
  hidden path _ := by
    cases path with
    | nil => rfl
    | cons name rest =>
      rw [resolve?_eq_read, Cell.read_map]
      cases rest <;> rfl

/-- Restricting to one more path that locates something is grafting what is there. -/
theorem graft (hrestriction : item.IsRestriction paths kept) (hitem : item.Ordered)
    (hpart : Part (.map kept) (.map item)) (hresolve : Item.resolve? item path = some value) :
    item.IsRestriction (paths ++ [path]) (Item.graft kept path value) := by
  have hpath := ne_nil_of_resolve? hresolve
  have hlocates : ∀ other, item.Locates (paths ++ [path]) other ↔
      item.Locates paths other ∨ other = path := by
    intro other
    rw [Locates, Locates, List.mem_append, List.mem_singleton]
    constructor
    · rintro ⟨hmem | rfl, hsome⟩
      · exact .inl ⟨hmem, hsome⟩
      · exact .inr rfl
    · rintro (⟨hmem, hsome⟩ | rfl)
      · exact ⟨.inl hmem, hsome⟩
      · exact ⟨.inr rfl, by rw [hresolve]; rfl⟩
  -- What is at and below the path comes from the item, whatever was kept there.
  have hbelow : ∀ below, path <+: below →
      Item.resolve? (Item.graft kept path value) below = Item.resolve? item below := by
    rintro _ ⟨rest, rfl⟩
    have hne := List.append_ne_nil_of_left_ne_nil hpath rest
    rw [resolve?_eq_read_of_ne_nil _ hne, resolve?_eq_read_of_ne_nil _ hne,
      read_graft_below hpart hresolve, Cell.read_append, ← resolve?_eq_read_of_ne_nil _ hpath,
      hresolve]
  have habove : ∀ above, above ≠ [] → above <+: path → ¬ path <+: above →
      ∃ rest, rest ≠ [] ∧ path = above ++ rest ∧
        Item.resolve? (Item.graft kept path value) above =
          some (.map (Item.graft (Cell.entries (Item.resolve? kept above)) rest value)) := by
    intro above hne hbegins hnot
    obtain ⟨rest, hrest, rfl⟩ := exists_rest_of_prefix hbegins hnot
    refine ⟨rest, hrest, rfl, ?_⟩
    rw [resolve?_eq_read_of_ne_nil _ hne, resolve?_eq_read_of_ne_nil _ hne,
      read_graft_above hpart hrest hresolve]
  have hapart : ∀ other, other ≠ [] → ¬ Overlap path other →
      Item.resolve? (Item.graft kept path value) other = Item.resolve? kept other := by
    intro other hne hpaths
    rw [resolve?_eq_read_of_ne_nil _ hne, resolve?_eq_read_of_ne_nil _ hne,
      read_graft_of_not_overlap hpart hresolve hpaths]
  refine of_map (fun first hfirst below hbegins => ?_) (fun first hfirst above hne hbegins hnone => ?_)
    fun other hnone => ?_
  · rcases (hlocates first).mp hfirst with hfirst | rfl
    · have hkept := hrestriction.whole first hfirst below hbegins
      have hne : below ≠ [] := fun hnil => hfirst.ne_nil (List.prefix_nil.mp (hnil ▸ hbegins))
      by_cases hbelowPath : path <+: below
      · exact hbelow below hbelowPath
      · by_cases habovePath : below <+: path
        · -- The map that is kept there is the item's own, which has what is grafted already.
          obtain ⟨rest, hrest, rfl, hread⟩ := habove below hne habovePath hbelowPath
          obtain ⟨entries, hentries, hheld⟩ := exists_map_of_resolve? hne hrest hresolve
          rw [hread, hkept, hentries, Cell.entries, (hitem.resolve? hentries).graft_self hheld]
        · rw [hapart below hne (not_or.mpr ⟨hbelowPath, habovePath⟩), hkept]
    · exact hbelow below hbegins
  · have hnot : ¬ path <+: above := hnone path ((hlocates path).mpr (.inr rfl))
    by_cases habovePath : above <+: path
    · obtain ⟨rest, _, _, hread⟩ := habove above hne habovePath hnot
      exact ⟨_, hread⟩
    · rcases (hlocates first).mp hfirst with hfirst | rfl
      · obtain ⟨entries, hentries, _⟩ := hrestriction.partly first hfirst above hne hbegins
          fun other hother => hnone other ((hlocates other).mpr (.inl hother))
        exact ⟨entries, (hapart above hne (not_or.mpr ⟨hnot, habovePath⟩)).trans hentries⟩
      · exact absurd hbegins habovePath
  · by_cases hne : other = []
    · subst hne
      rfl
    · rw [hapart other hne (hnone path ((hlocates path).mpr (.inr rfl)))]
      exact hrestriction.hidden other fun located hlocated =>
        hnone located ((hlocates located).mpr (.inl hlocated))

/-- Ordered restrictions to paths that locate the same are the same. -/
theorem unique {left right : Item} (hleft : item.IsRestriction paths left)
    (hright : item.IsRestriction paths right) (horderedLeft : left.Ordered)
    (horderedRight : right.Ordered) : left = right := by
  refine horderedLeft.ext horderedRight fun path => ?_
  by_cases hpath : path = []
  · subst hpath
    exact .inl rfl
  by_cases hwhole : ∃ located, item.Locates paths located ∧ located <+: path
  · obtain ⟨located, hlocated, hbegins⟩ := hwhole
    exact .inl ((hleft.whole located hlocated path hbegins).trans
      (hright.whole located hlocated path hbegins).symm)
  · have hnone : ∀ other, item.Locates paths other → ¬ other <+: path :=
      fun other hother hbegins => hwhole ⟨other, hother, hbegins⟩
    by_cases hpartly : ∃ located, item.Locates paths located ∧ path <+: located
    · obtain ⟨located, hlocated, hbegins⟩ := hpartly
      obtain ⟨first, hfirst, _⟩ := hleft.partly located hlocated path hpath hbegins hnone
      obtain ⟨second, hsecond, _⟩ := hright.partly located hlocated path hpath hbegins hnone
      exact .inr ⟨first, second, hfirst, hsecond⟩
    · have hapart : ∀ other, item.Locates paths other → ¬ Overlap other path :=
        fun other hother hoverlap => hoverlap.elim (hnone other hother)
          fun hbegins => hpartly ⟨other, hother, hbegins⟩
      exact .inl ((hleft.hidden path hapart).trans (hright.hidden path hapart).symm)

/-- A path of the restriction itself leads to what it leads to in the item. -/
theorem resolve?_of_mem (hrestriction : item.IsRestriction paths projected) (hmem : path ∈ paths) :
    Item.resolve? projected path = Item.resolve? item path := by
  by_cases hpath : path = []
  · subst hpath
    rfl
  cases hresolve : Item.resolve? item path with
  | some value =>
    rw [hrestriction.whole path ⟨hmem, by rw [hresolve]; rfl⟩ path List.prefix_rfl, hresolve]
  | none =>
    by_cases hwhole : ∃ located, item.Locates paths located ∧ located <+: path
    · obtain ⟨located, hlocated, hbegins⟩ := hwhole
      rw [hrestriction.whole located hlocated path hbegins, hresolve]
    · refine hrestriction.hidden path fun other hother hoverlap => ?_
      obtain ⟨value, hvalue⟩ := Option.isSome_iff_exists.mp hother.2
      rcases hoverlap with hbelow | habove
      · exact hwhole ⟨other, hother, hbelow⟩
      · by_cases hsame : other <+: path
        · exact hwhole ⟨other, hother, hsame⟩
        · obtain ⟨rest, hrest, rfl⟩ := exists_rest_of_prefix habove hsame
          obtain ⟨entries, hentries, _⟩ := exists_map_of_resolve? hpath hrest hvalue
          cases hresolve.symm.trans hentries

end IsRestriction

theorem extend_of_not_locates (hnot : Item.resolve? item path = none) :
    extend item kept path = kept := by
  rw [extend, hnot]

/-- An ordered item is restricted to the paths that are grafted. -/
theorem isRestriction_restrict (hitem : item.Ordered) (paths : List (List String)) :
    item.IsRestriction paths (restrict item paths) ∧ (restrict item paths).Ordered := by
  have hfold : ∀ (paths before : List (List String)) (kept : Item),
      item.IsRestriction before kept → Part (.map kept) (.map item) → kept.Ordered →
      item.IsRestriction (before ++ paths) (paths.foldl (extend item) kept) ∧
        (paths.foldl (extend item) kept).Ordered := by
    intro paths
    induction paths with
    | nil =>
      intro before kept hrestriction _ hkept
      exact ⟨by rwa [List.append_nil], hkept⟩
    | cons path rest ih =>
      intro before kept hrestriction hpart hkept
      rw [List.foldl_cons, List.append_cons]
      cases hresolve : Item.resolve? item path with
      | none =>
        rw [extend_of_not_locates hresolve]
        refine ih _ kept (hrestriction.congr fun other => ?_) hpart hkept
        rw [Locates, Locates, List.mem_append, List.mem_singleton]
        refine and_congr_left fun hsome => or_iff_left ?_
        rintro rfl
        rw [hresolve] at hsome
        cases hsome
      | some value =>
        have hextend : extend item kept path = Item.graft kept path value := by
          rw [extend, hresolve]
        rw [hextend]
        refine ih _ _ (hrestriction.graft hitem hpart hresolve) (part_graft hpart hresolve)
          (hkept.graft fun entries hentries => ?_)
        subst hentries
        exact hitem.resolve? hresolve
  exact hfold paths [] [] (.nil item) (part_nil item) .nil

/-- Neither the order of the paths nor how often each comes matters. -/
theorem restrict_congr (hitem : item.Ordered) (hsame : ∀ path, path ∈ others ↔ path ∈ paths) :
    restrict item others = restrict item paths := by
  obtain ⟨hleft, horderedLeft⟩ := isRestriction_restrict hitem others
  obtain ⟨hright, horderedRight⟩ := isRestriction_restrict hitem paths
  refine IsRestriction.unique (hleft.congr fun path => ?_) hright horderedLeft horderedRight
  exact and_congr_left fun _ => (hsame path).symm

end Restrictions

end Item

end RecordStore
