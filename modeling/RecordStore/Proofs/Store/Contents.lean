import Mathlib
import RecordStore.Proofs.Store.Table

/-!
# Tables as finite maps

The items of a table all have a key, and no two of them have the same one, so that the table is a
map from keys to items. Storing an item binds its key, and erasing a key unbinds it.
-/

namespace RecordStore

namespace KeyNames

variable {keys : KeyNames} {item key : Item}

/-- A key holds its own attributes and nothing else. -/
theorem keyOf?_self (hkey : keys.keyOf? item = some key) : keys.keyOf? key = some key := by
  have hsame : ∀ name ∈ keys.attributes, Item.get? key name = Item.get? item name := by
    intro name hname
    obtain ⟨entries, hentries, hdone⟩ := Option.bind_eq_some_iff.mp hkey
    obtain ⟨value, hvalue⟩ := mem_entries_of_mapM hentries name hname
    obtain ⟨held, hheld⟩ := Entries.exists_find?_sorted hvalue
    have hget : Item.get? key name = some held := by
      cases hdone
      exact hheld
    have hmem : (name, held) ∈ key := Entries.mem_of_find? hget
    rw [hget, Item.hasKey_iff.mp (hasKey_of_keyOf? hkey) name held hmem]
  rw [keyOf?_congr hsame, hkey]

theorem hasKey_iff (hwhole : keys.keyOf? key = some key) :
    item.hasKey key = true ↔ keys.keyOf? item = some key :=
  ⟨keyOf?_of_hasKey hwhole, hasKey_of_keyOf?⟩

end KeyNames

namespace StoredTable

variable {table : StoredTable} {key item : Item}

/-- The map that a table is: what it binds to each key. -/
def contents (table : StoredTable) (key : Item) : Option Item :=
  table.items.find? fun item => table.keys.keyOf? item = some key

/-- Every item has a key, and every key has at most one item. -/
structure Keyed (table : StoredTable) : Prop where
  whole : ∀ item ∈ table.items, ∃ key, table.keys.keyOf? item = some key
  distinct : table.items.Pairwise fun first second =>
    table.keys.keyOf? first ≠ table.keys.keyOf? second

theorem exactKey_ok {exact : Item} (hexact : table.exactKey key = .ok exact) :
    table.keys.keyOf? key = some exact := by
  unfold exactKey at hexact
  split at hexact
  · rename_i found hfound
    split at hexact
    · cases hexact
      exact hfound
    · cases hexact
  · cases hexact

/-- Under a whole key a table finds what it binds to the key. -/
theorem find?_eq_contents (hwhole : table.keys.keyOf? key = some key) :
    table.find? key = table.contents key := by
  have hsame : ∀ item : Item, item.hasKey key = decide (table.keys.keyOf? item = some key) := by
    intro item
    rw [Bool.eq_iff_iff, KeyNames.hasKey_iff hwhole, decide_eq_true_iff]
  unfold find? contents
  congr 1
  funext item
  exact hsame item

theorem keyOf?_of_contents (hbound : table.contents key = some item) :
    table.keys.keyOf? item = some key := by
  simpa using List.find?_some hbound

/-- The bindings of a table are its items. -/
theorem Keyed.contents_eq_some_iff (hkeyed : table.Keyed) :
    table.contents key = some item ↔ item ∈ table.items ∧ table.keys.keyOf? item = some key := by
  constructor
  · intro hbound
    exact ⟨List.mem_of_find?_eq_some hbound, keyOf?_of_contents hbound⟩
  · rintro ⟨hmem, hkey⟩
    have hdistinct := hkeyed.distinct
    unfold contents
    generalize table.items = items at hmem hdistinct
    induction items with
    | nil => cases hmem
    | cons first rest ih =>
      obtain ⟨hfirst, hrest⟩ := List.pairwise_cons.mp hdistinct
      rcases List.mem_cons.mp hmem with rfl | hmem
      · exact List.find?_cons_of_pos (by simpa using hkey)
      · have hother : table.keys.keyOf? first ≠ some key := hkey ▸ hfirst item hmem
        rw [List.find?_cons_of_neg (by simpa using hother)]
        exact ih hmem hrest

/-- Only whole keys are bound. -/
theorem contents_eq_none (hpartial : table.keys.keyOf? key ≠ some key) :
    table.contents key = none := by
  cases hbound : table.contents key with
  | none => rfl
  | some item => exact absurd (KeyNames.keyOf?_self (keyOf?_of_contents hbound)) hpartial

/-! ### Storing -/

theorem keys_store (table : StoredTable) (key item : Item) :
    (table.store key item).keys = table.keys := rfl

/-- Storing an item binds its key and leaves every other binding as it is. -/
theorem contents_store (hitem : table.keys.keyOf? item = some key) :
    (table.store key item).contents = Function.update table.contents key (some item) := by
  have hwhole := KeyNames.keyOf?_self hitem
  funext other
  by_cases hother : table.keys.keyOf? other = some other
  · have hstored : (table.store key item).keys.keyOf? other = some other := hother
    rw [← find?_eq_contents hstored]
    by_cases hsame : other = key
    · rw [hsame, Function.update_self, find?_store table (KeyNames.hasKey_of_keyOf? hitem)]
    · rw [Function.update_of_ne hsame, find?_store_of_ne table hitem hwhole hother hsame,
        find?_eq_contents hother]
  · have hstored : (table.store key item).keys.keyOf? other ≠ some other := hother
    have hsame : other ≠ key := by
      rintro rfl
      exact hother hwhole
    rw [Function.update_of_ne hsame, contents_eq_none hstored, contents_eq_none hother]

theorem Keyed.store (hkeyed : table.Keyed) (hitem : table.keys.keyOf? item = some key) :
    (table.store key item).Keyed := by
  have hwhole := KeyNames.keyOf?_self hitem
  obtain ⟨hitems, hdistinct⟩ := hkeyed
  constructor
  · intro held hmem
    rcases mem_replace hmem with rfl | hmem
    · exact ⟨key, hitem⟩
    · exact hitems held hmem
  · change (replace key item table.items).Pairwise _
    -- The item that is replaced had the same key.
    generalize table.items = items at hitems hdistinct
    induction items with
    | nil => exact List.pairwise_singleton _ _
    | cons first rest ih =>
      obtain ⟨hfirst, hrest⟩ := List.pairwise_cons.mp hdistinct
      unfold replace
      by_cases hheld : first.hasKey key = true
      · rw [if_pos hheld]
        refine List.pairwise_cons.mpr ⟨fun held hmem => ?_, hrest⟩
        have hsame : table.keys.keyOf? item = table.keys.keyOf? first :=
          hitem.trans ((KeyNames.hasKey_iff hwhole).mp hheld).symm
        rw [keys_store, hsame]
        exact hfirst held hmem
      · rw [if_neg hheld]
        refine List.pairwise_cons.mpr ⟨fun held hmem => ?_, ?_⟩
        · rcases mem_replace hmem with rfl | hmem
          · intro hsame
            apply hheld
            exact (KeyNames.hasKey_iff hwhole).mpr (hsame.trans hitem)
          · exact hfirst held hmem
        · exact ih (fun held hmem => hitems held (List.mem_cons_of_mem _ hmem)) hrest

/-! ### Erasing -/

theorem keys_erase (table : StoredTable) (key : Item) : (table.erase key).keys = table.keys := rfl

theorem Keyed.erase (hkeyed : table.Keyed) (key : Item) : (table.erase key).Keyed :=
  ⟨fun item hmem => hkeyed.whole item (List.mem_of_mem_eraseP hmem),
    hkeyed.distinct.sublist List.eraseP_sublist⟩

theorem Keyed.contents_erase_self (hkeyed : table.Keyed)
    (hwhole : table.keys.keyOf? key = some key) : (table.erase key).contents key = none := by
  have hdistinct := hkeyed.distinct
  change (table.items.eraseP fun item => item.hasKey key).find?
    (fun item => table.keys.keyOf? item = some key) = none
  rw [List.find?_eq_none]
  generalize table.items = items at hdistinct
  induction items with
  | nil => simp
  | cons first rest ih =>
    obtain ⟨hfirst, hrest⟩ := List.pairwise_cons.mp hdistinct
    intro held hmem
    by_cases hheld : first.hasKey key = true
    · rw [List.eraseP_cons_of_pos (p := fun item => Item.hasKey item key) hheld] at hmem
      have hdiffers := hfirst held hmem
      rw [(KeyNames.hasKey_iff hwhole).mp hheld] at hdiffers
      simpa using hdiffers.symm
    · rw [List.eraseP_cons_of_neg (p := fun item => Item.hasKey item key) hheld] at hmem
      rcases List.mem_cons.mp hmem with rfl | hmem
      · simpa [KeyNames.hasKey_iff hwhole] using hheld
      · exact ih hrest held hmem

theorem contents_erase_of_ne {other : Item} (table : StoredTable)
    (hwhole : table.keys.keyOf? key = some key) (hne : other ≠ key) :
    (table.erase key).contents other = table.contents other := by
  change (table.items.eraseP fun item => item.hasKey key).find?
    (fun item => table.keys.keyOf? item = some other) = _
  unfold contents
  generalize table.items = items
  induction items with
  | nil => rfl
  | cons first rest ih =>
    by_cases hheld : first.hasKey key = true
    · have hother : table.keys.keyOf? first ≠ some other := by
        rw [(KeyNames.hasKey_iff hwhole).mp hheld]
        exact fun hequal => hne (Option.some.inj hequal).symm
      rw [List.eraseP_cons_of_pos (p := fun item => Item.hasKey item key) hheld,
        List.find?_cons_of_neg (by simpa using hother)]
    · rw [List.eraseP_cons_of_neg (p := fun item => Item.hasKey item key) hheld, List.find?_cons,
        List.find?_cons, ih]

/-- Erasing a key unbinds it and leaves every other binding as it is. -/
theorem Keyed.contents_erase (hkeyed : table.Keyed) (hwhole : table.keys.keyOf? key = some key) :
    (table.erase key).contents = Function.update table.contents key none := by
  funext other
  by_cases hsame : other = key
  · rw [hsame, Function.update_self, hkeyed.contents_erase_self hwhole]
  · rw [Function.update_of_ne hsame, contents_erase_of_ne table hwhole hsame]

end StoredTable

end RecordStore
