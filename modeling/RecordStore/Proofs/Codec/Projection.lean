import RecordStore.Attribute.Path
import RecordStore.Proofs.Codec.Parts

/-!
# Reading parts of items

A projection shows a part of an item: some of its attributes, and of the maps within it some of the
entries. A part of what can be read can be read as well, since absent fields have a value too.
-/

namespace RecordStore

/-! ### Parts -/

/-- An attribute is a part of another one when it is the same or a map of parts of the entries
there. -/
inductive Attribute.Part : Attribute → Attribute → Prop
  | self (value : Attribute) : Part value value
  | map {shown whole : Item} (other : String × Attribute → Attribute)
      (hmem : ∀ entry ∈ shown, (entry.1, other entry) ∈ whole)
      (hfind : ∀ name value, Item.get? shown name = some value →
        Item.get? whole name = some (other (name, value)))
      (hpart : ∀ entry ∈ shown, Part entry.2 (other entry)) :
      Part (.map shown) (.map whole)

namespace Item

open Attribute (Part)

variable {kept item : Item} {name : String} {value found : Attribute}

theorem part_nil (item : Item) : Part (.map []) (.map item) :=
  .map Prod.snd (by simp) (by simp [get?]) (by simp)

theorem part_set (hpart : Part (.map kept) (.map item)) (hfound : get? item name = some found)
    (hvalue : Part value found) : Part (.map (set kept name value)) (.map item) := by
  obtain ⟨other, hmem, hfind, hparts⟩ : ∃ other : String × Attribute → Attribute,
      (∀ entry ∈ kept, (entry.1, other entry) ∈ item) ∧
      (∀ name value, get? kept name = some value → get? item name = some (other (name, value))) ∧
      ∀ entry ∈ kept, Part entry.2 (other entry) := by
    cases hpart with
    | self => exact ⟨Prod.snd, fun _ hentry => hentry, fun _ _ => id, fun _ _ => .self _⟩
    | map other hmem hfind hparts => exact ⟨other, hmem, hfind, hparts⟩
  refine .map (fun entry => if entry = (name, value) then found else other entry) ?_ ?_ ?_
  · intro entry hentry
    by_cases hnew : entry = (name, value)
    · rw [if_pos hnew, hnew]
      exact Entries.mem_of_find? hfound
    · rw [if_neg hnew]
      exact hmem entry ((Entries.mem_insert hentry).resolve_left hnew)
  · intro other held hheld
    by_cases hsame : name = other
    · subst hsame
      rw [get?_set_self] at hheld
      cases hheld
      rw [if_pos rfl, hfound]
    · rw [get?_set_of_ne _ _ hsame] at hheld
      rw [if_neg fun hnew => hsame (congrArg Prod.fst hnew).symm, hfind _ _ hheld]
  · intro entry hentry
    by_cases hnew : entry = (name, value)
    · rw [if_pos hnew, hnew]
      exact hvalue
    · rw [if_neg hnew]
      exact hparts entry ((Entries.mem_insert hentry).resolve_left hnew)

theorem part_of_get? (hpart : Part (.map kept) (.map item)) (hkept : get? kept name = some value) :
    ∃ found, get? item name = some found ∧ Part value found := by
  cases hpart with
  | self => exact ⟨value, hkept, .self value⟩
  | map other _ hfind hparts =>
    exact ⟨_, hfind name value hkept, hparts (name, value) (Entries.mem_of_find? hkept)⟩

/-- Grafting what a path leads to keeps a part a part. -/
theorem part_graft {path : List String} (hpart : Part (.map kept) (.map item))
    (hresolve : resolve? item path = some value) : Part (.map (graft kept path value)) (.map item) := by
  induction path generalizing kept item with
  | nil => exact hpart
  | cons name rest ih =>
    cases rest with
    | nil => exact part_set hpart hresolve (.self value)
    | cons next rest =>
      rw [resolve?] at hresolve
      split at hresolve
      · rename_i entries hentries
        rw [graft]
        split
        · rename_i inner hinner
          obtain ⟨found, hfound, hwithin⟩ := part_of_get? hpart hinner
          rw [hentries] at hfound
          cases hfound
          exact part_set hpart hentries (ih hwithin hresolve)
        · exact hpart
        · exact part_set hpart hentries (ih (part_nil entries) hresolve)
      · cases hresolve

/-- A part of an item with what a path leads to. -/
def extend (item kept : Item) (path : List String) : Item :=
  match resolve? item path with
  | some value => graft kept path value
  | none => kept

theorem restrict_eq (item : Item) (paths : List (List String)) :
    restrict item paths = paths.foldl (extend item) [] := rfl

theorem part_restrict (item : Item) (paths : List (List String)) :
    Part (.map (restrict item paths)) (.map item) := by
  have hfold : ∀ kept : Item, Part (.map kept) (.map item) →
      Part (.map (paths.foldl (extend item) kept)) (.map item) := by
    induction paths with
    | nil => exact fun _ hpart => hpart
    | cons path rest ih =>
      intro kept hpart
      refine ih _ ?_
      unfold extend
      cases hresolve : resolve? item path with
      | none => exact hpart
      | some value => exact part_graft hpart hresolve
  exact hfold [] (part_nil item)

theorem isSome_set {other : String} (hkept : (get? kept other).isSome) :
    (get? (set kept name value) other).isSome := by
  by_cases hsame : name = other
  · rw [hsame, get?_set_self]
    rfl
  · rwa [get?_set_of_ne _ _ hsame]

theorem isSome_extend {path : List String} (hkept : (get? kept name).isSome) :
    (get? (extend item kept path) name).isSome := by
  unfold extend
  split
  · rw [graft.eq_def]
    split
    · exact hkept
    · exact isSome_set hkept
    · split
      · exact isSome_set hkept
      · exact hkept
      · exact isSome_set hkept
  · exact hkept

/-- A projection on an attribute shows it, whole unless it is a map. -/
theorem get?_restrict {paths : List (List String)} (hname : [name] ∈ paths)
    (hplain : ∀ entries, get? item name ≠ some (.map entries)) :
    get? (restrict item paths) name = get? item name := by
  have hkeeps : ∀ (paths : List (List String)) (kept : Item), (get? kept name).isSome →
      (get? (paths.foldl (extend item) kept) name).isSome := by
    intro paths
    induction paths with
    | nil => exact fun _ hkept => hkept
    | cons path rest ih => exact fun kept hkept => ih _ (isSome_extend hkept)
  have hshows : (get? item name).isSome → (get? (restrict item paths) name).isSome := by
    intro hheld
    obtain ⟨before, after, rfl⟩ := List.append_of_mem hname
    obtain ⟨value, hvalue⟩ := Option.isSome_iff_exists.mp hheld
    rw [restrict_eq, List.foldl_append, List.foldl_cons]
    apply hkeeps
    simp [extend, resolve?, hvalue, graft]
  cases hshown : get? (restrict item paths) name with
  | none =>
    cases hheld : get? item name with
    | none => rfl
    | some value =>
      have hboth := hshows (by rw [hheld]; rfl)
      rw [hshown] at hboth
      cases hboth
  | some value =>
    obtain ⟨found, hfound, hpart⟩ := part_of_get? (part_restrict item paths) hshown
    cases hpart with
    | self => exact hfound.symm
    | map => exact absurd hfound (hplain _)

end Item

/-! ### Reading parts -/

namespace Codec

variable {table : TableSchema}

theorem exists_readMembers {held : List (String × (FieldSchema → Except Error Value))}
    {declared : List FieldSchema} {record : Record}
    (hheld : ∀ field ∈ declared, ∃ value, readMember held field = .ok value) :
    ∃ result, readMembers held record declared = .ok result := by
  induction declared generalizing record with
  | nil => exact ⟨record, rfl⟩
  | cons field rest ih =>
    obtain ⟨value, hvalue⟩ := hheld field List.mem_cons_self
    rw [readMembers_cons, hvalue]
    exact ih fun other hmem => hheld other (List.mem_cons_of_mem _ hmem)

theorem exists_readMember {held : List (String × (FieldSchema → Except Error Value))}
    {declared : List FieldSchema} {record result : Record}
    (hread : readMembers held record declared = .ok result) :
    ∀ field ∈ declared, ∃ value, readMember held field = .ok value := by
  induction declared generalizing record with
  | nil => simp
  | cons first rest ih =>
    rw [readMembers_cons] at hread
    obtain ⟨value, hvalue, hrest⟩ := bind_eq_ok_iff.mp hread
    intro field hmem
    rcases List.mem_cons.mp hmem with rfl | hmem
    · exact ⟨value, hvalue⟩
    · exact ih hrest field hmem

/-- What is read of a whole object can be read of a part of it. -/
theorem exists_readMembers_of_part {shown whole : Item} {declared : List FieldSchema}
    {record result start : Record}
    (hread : readMembers (decodeFields table whole) record declared = .ok result)
    (hpart : ∀ name value, Item.get? shown name = some value → ∃ other,
      Item.get? whole name = some other ∧ ∀ storage type result,
        decode table storage type other = .ok result →
          ∃ result, decode table storage type value = .ok result) :
    ∃ result, readMembers (decodeFields table shown) start declared = .ok result := by
  refine exists_readMembers fun field hmem => ?_
  obtain ⟨value, hvalue⟩ := exists_readMember hread field hmem
  rw [readMember, find?_decodeFields] at hvalue ⊢
  cases hshown : Item.get? shown field.wireName with
  | none => exact ⟨_, rfl⟩
  | some held =>
    obtain ⟨other, hother, hdecodes⟩ := hpart _ _ hshown
    rw [hother] at hvalue
    by_cases hpersist : field.persist
    · simp only [Option.map_some, hpersist, if_true] at hvalue ⊢
      exact hdecodes _ _ _ hvalue
    · simp only [Option.map_some, hpersist] at hvalue ⊢
      exact ⟨_, rfl⟩

theorem exists_decodeEntries_of_part {shown whole : Item} {element : ElementType}
    {entries : List (String × Value)} (hread : decodeEntries table element whole = .ok entries)
    (hpart : ∀ entry ∈ shown, ∃ other, (entry.1, other) ∈ whole ∧ ∀ storage type result,
      decode table storage type other = .ok result →
        ∃ result, decode table storage type entry.2 = .ok result) :
    ∃ entries, decodeEntries table element shown = .ok entries := by
  rw [decodeEntries_eq_mapM] at hread ⊢
  refine Entries.exists_mapM fun name value hmem => ?_
  obtain ⟨other, hother, hdecodes⟩ := hpart (name, value) hmem
  obtain ⟨_, _, hentry⟩ := exists_mem_of_forall₂ (mapM_ok hread).flip (name, other) hother
  obtain ⟨result, hresult, _⟩ := map_eq_ok_iff.mp hentry
  exact hdecodes _ _ _ hresult

theorem exists_decode_of_part {shown whole : Attribute} (hpart : shown.Part whole) :
    ∀ storage type value, decode table storage type whole = .ok value →
      ∃ value, decode table storage type shown = .ok value := by
  induction hpart with
  | self stored => exact fun _ _ value hdecode => ⟨value, hdecode⟩
  | @map shown whole other hmem hfind _ ih =>
    intro storage type value hdecode
    have hentries : ∀ {element entries}, decodeEntries table element whole = .ok entries →
        ∃ entries, decodeEntries table element shown = .ok entries := fun hread =>
      exists_decodeEntries_of_part hread fun entry hentry => ⟨_, hmem entry hentry, ih entry hentry⟩
    have hmembers : ∀ {declared : List FieldSchema} {record result : Record},
        readMembers (decodeFields table whole) record declared = .ok result →
        ∃ result, readMembers (decodeFields table shown) record declared = .ok result := by
      intro declared record result hread
      refine exists_readMembers_of_part hread fun name value hvalue => ?_
      exact ⟨_, hfind name value hvalue, ih (name, value) (Entries.mem_of_find? hvalue)⟩
    obtain ⟨compressed, _ | field⟩ := storage
    · have hplain : ∀ entries : Item, decode table ⟨compressed, none⟩ type (.map entries) =
          decode table .plain type (.map entries) := by
        intro entries
        cases compressed <;> rfl
      rw [hplain] at hdecode ⊢
      obtain ⟨kind, _ | element⟩ := type
      · cases hdecode
      cases kind with
      | list => cases hdecode
      | set => cases hdecode
      | map =>
        rw [decode_map_eq, ← decodeEntries_eq_mapM] at hdecode ⊢
        obtain ⟨entries, hread, _⟩ := map_eq_ok_iff.mp hdecode
        obtain ⟨others, hothers⟩ := hentries hread
        exact ⟨_, map_eq_ok_iff.mpr ⟨others, hothers, rfl⟩⟩
      | scalar =>
        cases element with
        | object typeName =>
          have hobject : ∀ entries : Item,
              decode table .plain (.scalar (.object typeName)) (.map entries) = (do
                let object ← table.requireType typeName
                let record ← readMembers (decodeFields table entries) (.empty object.name)
                  object.fields
                return record.toValue) := fun _ => rfl
          obtain ⟨object, hdeclared, hread⟩ :=
            bind_eq_ok_iff.mp ((hobject whole).symm.trans hdecode)
          obtain ⟨record, hread, _⟩ := bind_eq_ok_iff.mp hread
          obtain ⟨result, hresult⟩ := hmembers hread
          exact ⟨_, (hobject shown).trans (by rw [hdeclared, ok_bind, hresult]; rfl)⟩
        | _ => cases hdecode
    · have hbyId : ∀ entries : Item, decode table ⟨compressed, some field⟩ type (.map entries) = (do
          let element ← type.requireElement
          let entries ← decodeEntries table element entries
          return .list ((entries.map Prod.snd).mergeSort idPrecedes)) := by
        intro entries
        cases compressed <;> rfl
      rw [hbyId] at hdecode ⊢
      obtain ⟨element, helement, hdecode⟩ := bind_eq_ok_iff.mp hdecode
      obtain ⟨entries, hread, _⟩ := bind_eq_ok_iff.mp hdecode
      obtain ⟨others, hothers⟩ := hentries hread
      rw [helement, ok_bind, hothers]
      exact ⟨_, rfl⟩

end Codec

/-! ### Items at the version of their table -/

/-- An item at the version of its table that can be read. -/
structure TableSchema.Current (table : TableSchema) (item : Item) : Prop where
  version : ∃ stored, Codec.storedVersion table item = .ok stored ∧
    stored.getD 0 = table.version
  reads : ∃ record, Record.ofItem table item = .ok record

namespace TableSchema.Current

variable {table : TableSchema} {item : Item}

/-- A projection that shows the counters shows an item that can be read. -/
theorem restrict (hcurrent : table.Current item) {paths : List (List String)}
    (hversion : [table.versionAttribute] ∈ paths)
    (hrevision : table.optimisticLocking = true → [table.revisionAttribute] ∈ paths) :
    table.Current (item.restrict paths) := by
  obtain ⟨stored, hstored, hsame⟩ := hcurrent.version
  obtain ⟨record, hread⟩ := hcurrent.reads
  have hshownVersion : Item.get? (item.restrict paths) table.versionAttribute =
      Item.get? item table.versionAttribute := by
    refine Item.get?_restrict hversion fun entries hmap => ?_
    rw [Codec.storedVersion, hmap] at hstored
    cases hstored
  obtain ⟨object, hobject, hrest⟩ := bind_eq_ok_iff.mp hread
  obtain ⟨shown, hshown⟩ : ∃ shown,
      Codec.decodeObject table table.root (item.restrict paths) = .ok shown := by
    refine Codec.exists_readMembers_of_part hobject fun name value hvalue => ?_
    obtain ⟨other, hother, hpart⟩ := Item.part_of_get? (Item.part_restrict item paths) hvalue
    exact ⟨other, hother, Codec.exists_decode_of_part hpart⟩
  refine ⟨⟨stored, ?_, hsame⟩, ?_⟩
  · rw [← hstored, Codec.storedVersion, Codec.storedVersion, hshownVersion]
  · rw [Record.ofItem, hshown, ok_bind]
    by_cases hlocking : table.optimisticLocking
    · rw [if_pos hlocking] at hrest ⊢
      obtain ⟨revision, hstoredRevision, _⟩ := bind_eq_ok_iff.mp hrest
      have hshownRevision : Item.get? (item.restrict paths) table.revisionAttribute =
          Item.get? item table.revisionAttribute := by
        refine Item.get?_restrict (hrevision hlocking) fun entries hmap => ?_
        rw [Codec.storedRevision, hmap] at hstoredRevision
        cases hstoredRevision
      have hreadRevision : Codec.storedRevision table (item.restrict paths) = .ok revision := by
        rw [← hstoredRevision, Codec.storedRevision, Codec.storedRevision, hshownRevision]
      exact ⟨{ shown with revision }, by rw [hreadRevision]; rfl⟩
    · rw [if_neg hlocking]
      exact ⟨shown, rfl⟩

end TableSchema.Current

end RecordStore
