import RecordStore.Proofs.Store.Contents
import RecordStore.Proofs.Store.Page
import RecordStore.Proofs.Store.Reading

/-!
# Rewritten tables

A table whose items are only ever replaced under their own keys keeps every item in its place. Items
under new keys follow the others. This outlasts any number of such writes, so that what is read
between them is an item that the table began with, or one that took the place of such an item.
-/

namespace RecordStore

/-- Items some of which were replaced by others with their keys, before further ones with keys that
none of them had. -/
def Item.Rewritten (keys : KeyNames) (rewrites : Item → Prop) (before after : List Item) : Prop :=
  ∃ kept added, after = kept ++ added ∧
    List.Forall₂ (fun old new => new = old ∨ rewrites new ∧ keys.keyOf? new = keys.keyOf? old)
      before kept ∧
    ∀ item ∈ added, rewrites item ∧ ∀ old ∈ before, keys.keyOf? old ≠ keys.keyOf? item

namespace StoredTable

variable {rewrites : Item → Prop} {before after : StoredTable} {key item : Item}

/-- A table in which some items were replaced, and others added. -/
structure Rewritten (rewrites : Item → Prop) (before after : StoredTable) : Prop where
  keys : after.keys = before.keys
  indexes : after.indexes = before.indexes
  units : after.units = before.units
  items : Item.Rewritten before.keys rewrites before.items after.items

namespace Rewritten

theorem refl (rewrites : Item → Prop) (table : StoredTable) : table.Rewritten rewrites table :=
  ⟨rfl, rfl, rfl, table.items, [], (List.append_nil _).symm,
    List.forall₂_same.mpr fun _ _ => .inl rfl, by simp⟩

/-- An item is replaced in its place, or none of them has the key. -/
theorem replace_append {keys : KeyNames} {items kept : List Item} (added : List Item)
    (hitem : keys.keyOf? item = some key) (hrewrites : rewrites item)
    (hkept : List.Forall₂ (fun old new => new = old ∨
      rewrites new ∧ keys.keyOf? new = keys.keyOf? old) items kept) :
    (∃ changed, replace key item (kept ++ added) = changed ++ added ∧
      List.Forall₂ (fun old new => new = old ∨
        rewrites new ∧ keys.keyOf? new = keys.keyOf? old) items changed) ∨
      (∀ old ∈ items, keys.keyOf? old ≠ some key) ∧
        replace key item (kept ++ added) = kept ++ replace key item added := by
  have hwhole := KeyNames.keyOf?_self hitem
  induction hkept with
  | nil => exact .inr ⟨by simp, rfl⟩
  | @cons old new items kept hfirst hrest ih =>
    have hkey : keys.keyOf? new = keys.keyOf? old := by
      rcases hfirst with rfl | ⟨_, hkey⟩
      · rfl
      · exact hkey
    have hreplace : replace key item (new :: kept ++ added) =
        if new.hasKey key then item :: (kept ++ added)
        else new :: replace key item (kept ++ added) := rfl
    by_cases hheld : new.hasKey key = true
    · rw [hreplace, if_pos hheld]
      refine .inl ⟨item :: kept, rfl, .cons (.inr ⟨hrewrites, ?_⟩) hrest⟩
      rw [hitem, ← hkey, (KeyNames.hasKey_iff hwhole).mp hheld]
    · rw [hreplace, if_neg hheld]
      rcases ih with ⟨changed, hchanged, hall⟩ | ⟨hnone, hadded⟩
      · exact .inl ⟨new :: changed, by rw [hchanged]; rfl, .cons hfirst hall⟩
      · refine .inr ⟨?_, by rw [hadded]; rfl⟩
        rintro other hmem
        rcases List.mem_cons.mp hmem with rfl | hmem
        · rw [← hkey]
          exact fun hsame => hheld ((KeyNames.hasKey_iff hwhole).mpr hsame)
        · exact hnone other hmem

theorem store (hrewritten : before.Rewritten rewrites after)
    (hitem : before.keys.keyOf? item = some key) (hrewrites : rewrites item) :
    before.Rewritten rewrites (after.store key item) := by
  refine ⟨hrewritten.keys, hrewritten.indexes, hrewritten.units, ?_⟩
  obtain ⟨kept, added, hsplit, hkept, hadded⟩ := hrewritten.items
  change Item.Rewritten _ _ _ (replace key item after.items)
  rw [hsplit]
  rcases replace_append added hitem hrewrites hkept with
    ⟨changed, hchanged, hall⟩ | ⟨hnone, hlast⟩
  · exact ⟨changed, added, hchanged, hall, hadded⟩
  · refine ⟨kept, replace key item added, hlast, hkept, fun other hmem => ?_⟩
    rcases mem_replace hmem with rfl | hmem
    · refine ⟨hrewrites, fun old hold => ?_⟩
      rw [hitem]
      exact hnone old hold
    · exact hadded other hmem

theorem mem (hrewritten : before.Rewritten rewrites after) (hmem : item ∈ after.items) :
    item ∈ before.items ∨ rewrites item := by
  obtain ⟨kept, added, hsplit, hkept, hadded⟩ := hrewritten.items
  rw [hsplit, List.mem_append] at hmem
  rcases hmem with hmem | hmem
  · obtain ⟨old, hold, rfl | ⟨hrewrites, _⟩⟩ := exists_mem_of_forall₂ hkept item hmem
    · exact .inl hold
    · exact .inr hrewrites
  · exact .inr (hadded item hmem).1

end Rewritten

theorem Keyed.eq_of_keyOf? {table : StoredTable} (hkeyed : table.Keyed) {first second : Item}
    (hfirst : first ∈ table.items) (hsecond : second ∈ table.items)
    (hsame : table.keys.keyOf? first = table.keys.keyOf? second) : first = second := by
  obtain ⟨key, hkey⟩ := hkeyed.whole first hfirst
  have hheld := hkeyed.contents_eq_some_iff.mpr ⟨hfirst, hkey⟩
  rw [hkeyed.contents_eq_some_iff.mpr ⟨hsecond, hsame ▸ hkey⟩] at hheld
  exact (Option.some.inj hheld).symm

/-- Where each new item has the key of the item that it was made from, items are only replaced. -/
theorem Rewritten.forall₂ {makes : Item → Item → Prop}
    (hrewritten : before.Rewritten (fun item => ∃ source ∈ before.items, makes source item) after)
    (hkeyed : before.Keyed)
    (hkeys : ∀ source ∈ before.items, ∀ item, makes source item →
      before.keys.keyOf? item = before.keys.keyOf? source) :
    List.Forall₂ (fun old new => new = old ∨
      makes old new ∧ before.keys.keyOf? new = before.keys.keyOf? old) before.items after.items := by
  obtain ⟨kept, added, hsplit, hkept, hadded⟩ := hrewritten.items
  have hnone : added = [] := by
    rw [List.eq_nil_iff_forall_not_mem]
    intro item hmem
    obtain ⟨⟨source, hsource, hmakes⟩, hfresh⟩ := hadded item hmem
    exact hfresh source hsource (hkeys source hsource item hmakes).symm
  rw [hsplit, hnone, List.append_nil]
  have hall : ∀ {olds news : List Item}, (∀ old ∈ olds, old ∈ before.items) →
      List.Forall₂ (fun old new => new = old ∨ (∃ source ∈ before.items, makes source new) ∧
        before.keys.keyOf? new = before.keys.keyOf? old) olds news →
      List.Forall₂ (fun old new => new = old ∨
        makes old new ∧ before.keys.keyOf? new = before.keys.keyOf? old) olds news := by
    intro olds news hmem hpairs
    induction hpairs with
    | nil => exact .nil
    | @cons old new olds news hfirst _ ih =>
      refine .cons ?_ (ih fun other hother => hmem other (List.mem_cons_of_mem _ hother))
      rcases hfirst with hsame | ⟨⟨source, hsource, hmakes⟩, hkey⟩
      · exact .inl hsame
      · have hsourceKey := (hkeys source hsource new hmakes).symm.trans hkey
        have hsame := hkeyed.eq_of_keyOf? hsource (hmem old List.mem_cons_self) hsourceKey
        exact .inr ⟨hsame ▸ hmakes, hkey⟩
  exact hall (fun _ hmem => hmem) hkept

theorem Rewritten.eq_of_none (hrewritten : before.Rewritten rewrites after)
    (hnone : ∀ item, ¬ rewrites item) : after = before := by
  obtain ⟨kept, added, hsplit, hkept, hadded⟩ := hrewritten.items
  have hadds : added = [] :=
    List.eq_nil_iff_forall_not_mem.mpr fun item hmem => hnone item (hadded item hmem).1
  have hsame : before.items = kept := by
    refine List.forall₂_eq_eq_eq ▸ hkept.imp fun old new hpair => ?_
    exact (hpair.resolve_right fun hboth => hnone new hboth.1).symm
  obtain ⟨keys, indexes, items, units⟩ := after
  obtain ⟨hkeys, hindexes, hunits, _⟩ := hrewritten
  cases hkeys
  cases hindexes
  cases hunits
  rw [hadds, List.append_nil, ← hsame] at hsplit
  cases hsplit
  rfl

end StoredTable

/-! ### Rewritten stores -/

namespace Store

variable {rewrites : String → StoredTable → Item → Prop} {base store later : Store} {name : String}
  {before after : StoredTable}

/-- A store in whose tables items were replaced and added. -/
def Rewritten (rewrites : String → StoredTable → Item → Prop) (base store : Store) : Prop :=
  ∀ name, Option.Rel (fun before after => before.Rewritten (rewrites name before) after)
    (base.table? name) (store.table? name)

namespace Rewritten

theorem refl (rewrites : String → StoredTable → Item → Prop) (store : Store) :
    store.Rewritten rewrites store := by
  intro name
  cases store.table? name with
  | none => exact .none
  | some table => exact .some (.refl _ table)

theorem of_tables_eq (hrewritten : base.Rewritten rewrites store)
    (htables : later.tables = store.tables) : base.Rewritten rewrites later := by
  intro name
  rw [table?_congr htables]
  exact hrewritten name

theorem exists_before (hrewritten : base.Rewritten rewrites store)
    (hafter : store.table? name = some after) :
    ∃ before, base.table? name = some before ∧ before.Rewritten (rewrites name before) after := by
  have hname := hrewritten name
  rw [hafter] at hname
  generalize base.table? name = held at hname ⊢
  cases hname with
  | some hboth => exact ⟨_, rfl, hboth⟩

theorem exists_after (hrewritten : base.Rewritten rewrites store)
    (hbefore : base.table? name = some before) :
    ∃ after, store.table? name = some after ∧ before.Rewritten (rewrites name before) after := by
  have hname := hrewritten name
  rw [hbefore] at hname
  generalize store.table? name = held at hname ⊢
  cases hname with
  | some hboth => exact ⟨_, rfl, hboth⟩

/-- A further item is replaced or added. -/
theorem setTable (hrewritten : base.Rewritten rewrites store) (hafter : store.table? name = some after)
    {key item : Item} (hitem : after.keys.keyOf? item = some key)
    (hrewrites : ∀ before, base.table? name = some before → rewrites name before item) :
    base.Rewritten rewrites (store.setTable name (after.store key item)) := by
  obtain ⟨before, hbefore, hboth⟩ := hrewritten.exists_before hafter
  intro other
  by_cases hname : other = name
  · subst hname
    rw [table?_setTable, hbefore]
    refine .some (hboth.store ?_ (hrewrites before hbefore))
    rw [← hboth.keys]
    exact hitem
  · rw [table?_setTable_of_ne _ _ hname]
    exact hrewritten other

end Rewritten

/-! ### Reading between writes -/

theorem rewritten_recorded (store : Store) (calls : List Call)
    (hrewritten : base.Rewritten rewrites store) : base.Rewritten rewrites { store with calls } :=
  hrewritten

theorem rewritten_rounds (store : Store) (unprocessedRounds : Nat)
    (hrewritten : base.Rewritten rewrites store) :
    base.Rewritten rewrites { store with unprocessedRounds } :=
  hrewritten

theorem yields_requireTable (name : String) (context : RequestContext) :
    Yields (base.Rewritten rewrites) (fun after => ∃ before, base.table? name = some before ∧
      before.Rewritten (rewrites name before) after) (requireTable name context) := by
  refine Yields.get.bind fun store hrewritten => ?_
  cases hafter : store.table? name with
  | none => exact .throw _
  | some after => exact .pure (hrewritten.exists_before hafter)

end Store

end RecordStore
