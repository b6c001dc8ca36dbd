import Mathlib
import RecordStore.Entries

/-!
# Entries by name

Which entries a list of named entries holds, and when it is determined by what it holds under each
name.
-/

namespace RecordStore.Entries

variable {α β : Type} {entries : List (String × α)}

theorem mem_of_find? {name : String} {value : α} (hfind : find? entries name = some value) :
    (name, value) ∈ entries := by
  induction entries with
  | nil => cases hfind
  | cons entry rest ih =>
    obtain ⟨key, held⟩ := entry
    rw [find?_cons] at hfind
    split at hfind
    · rename_i hkey
      cases hfind
      rw [hkey]
      exact List.mem_cons_self
    · exact List.mem_cons_of_mem _ (ih hfind)

theorem sizeOf_lt_of_mem [SizeOf α] {name : String} {value : α} (hmem : (name, value) ∈ entries) :
    sizeOf value < sizeOf entries := by
  have hentry := List.sizeOf_lt_of_mem hmem
  rw [Prod.mk.sizeOf_spec] at hentry
  omega

theorem find?_eq_none_iff {name : String} :
    find? entries name = none ↔ ∀ entry ∈ entries, entry.1 ≠ name := by
  induction entries with
  | nil => simp
  | cons entry rest ih =>
    obtain ⟨key, held⟩ := entry
    rw [find?_cons]
    split
    · rename_i hkey
      simp [hkey]
    · rename_i hkey
      rw [ih, List.forall_mem_cons]
      exact ⟨fun hrest => ⟨hkey, hrest⟩, fun hall => hall.2⟩

theorem find?_of_mem (hnames : (names entries).Nodup) {name : String} {value : α}
    (hmem : (name, value) ∈ entries) : find? entries name = some value := by
  induction entries with
  | nil => cases hmem
  | cons entry rest ih =>
    obtain ⟨key, held⟩ := entry
    obtain ⟨hfresh, hrest⟩ := List.nodup_cons.mp hnames
    rw [find?_cons]
    rcases List.mem_cons.mp hmem with hsame | hmem
    · cases hsame
      exact if_pos rfl
    · rw [if_neg]
      · exact ih hrest hmem
      · rintro rfl
        exact hfresh (List.mem_map.mpr ⟨_, hmem, rfl⟩)

theorem find?_append (first second : List (String × α)) (name : String) :
    find? (first ++ second) name = (find? first name).or (find? second name) := by
  induction first with
  | nil => rfl
  | cons entry rest ih =>
    obtain ⟨key, held⟩ := entry
    rw [List.cons_append, find?_cons, find?_cons]
    split
    · rfl
    · exact ih

theorem find?_map (change : α → β) (name : String) :
    find? (entries.map fun entry => (entry.1, change entry.2)) name =
      (find? entries name).map change := by
  induction entries with
  | nil => rfl
  | cons entry rest ih =>
    obtain ⟨key, held⟩ := entry
    rw [List.map_cons, find?_cons, find?_cons, ih]
    split <;> rfl

theorem put_of_fresh {name : String} (value : α) (hfresh : find? entries name = none) :
    put entries name value = entries ++ [(name, value)] := by
  induction entries with
  | nil => rfl
  | cons entry rest ih =>
    obtain ⟨key, held⟩ := entry
    rw [find?_cons] at hfresh
    split at hfresh
    · cases hfresh
    · rename_i hkey
      rw [put, if_neg hkey, ih hfresh]
      rfl

theorem mem_put {name : String} {value : α}
    {entry : String × α} (hmem : entry ∈ put entries name value) :
    entry = (name, value) ∨ entry ∈ entries := by
  induction entries with
  | nil => exact .inl (List.mem_singleton.mp hmem)
  | cons first rest ih =>
    obtain ⟨key, held⟩ := first
    unfold put at hmem
    split at hmem
    · exact (List.mem_cons.mp hmem).imp id (List.mem_cons_of_mem _)
    · rcases List.mem_cons.mp hmem with rfl | hmem
      · exact .inr List.mem_cons_self
      · exact (ih hmem).imp id (List.mem_cons_of_mem _)

theorem mem_names_iff {name : String} : name ∈ names entries ↔ find? entries name ≠ none := by
  rw [names, List.mem_map, Ne, find?_eq_none_iff]
  simp

/-! ### Entries that change -/

theorem nodup_put (hnames : (names entries).Nodup) (name : String) (value : α) :
    (names (put entries name value)).Nodup := by
  induction entries with
  | nil => exact List.nodup_singleton name
  | cons entry rest ih =>
    obtain ⟨key, held⟩ := entry
    obtain ⟨hfresh, hrest⟩ := List.nodup_cons.mp hnames
    unfold put
    split
    · rename_i hkey
      exact List.nodup_cons.mpr ⟨hkey ▸ hfresh, hrest⟩
    · rename_i hkey
      refine List.nodup_cons.mpr ⟨?_, ih hrest⟩
      change key ∉ names (put rest name value)
      rw [mem_names_iff, find?_put, if_neg (Ne.symm hkey), ← mem_names_iff]
      exact hfresh

theorem names_put {name : String} (hmem : name ∈ names entries) (value : α) :
    names (put entries name value) = names entries := by
  induction entries with
  | nil => cases hmem
  | cons entry rest ih =>
    obtain ⟨key, held⟩ := entry
    unfold put
    split
    · rename_i hkey
      exact congrArg (· :: names rest) hkey.symm
    · rename_i hkey
      have hrest : name ∈ names rest := (List.mem_cons.mp hmem).resolve_left (Ne.symm hkey)
      exact congrArg (key :: ·) (ih hrest)

theorem erase_eq_filter (entries : List (String × α)) (name : String) :
    erase entries name = entries.filter fun entry => !decide (entry.1 = name) := by
  induction entries with
  | nil => rfl
  | cons entry rest ih =>
    obtain ⟨key, held⟩ := entry
    by_cases hkey : key = name <;> simp [erase, ih, hkey]

theorem erase_of_fresh {name : String} (hfresh : name ∉ names entries) :
    erase entries name = entries := by
  rw [erase_eq_filter, List.filter_eq_self]
  intro entry hmem
  have hne : entry.1 ≠ name := fun hsame => hfresh (hsame ▸ List.mem_map_of_mem hmem)
  simp [hne]

theorem nodup_filter (hnames : (names entries).Nodup) (keep : String × α → Bool) :
    (names (entries.filter keep)).Nodup :=
  hnames.sublist (List.filter_sublist.map Prod.fst)

theorem nodup_erase (hnames : (names entries).Nodup) (name : String) :
    (names (erase entries name)).Nodup := by
  rw [erase_eq_filter]
  exact nodup_filter hnames _

theorem find?_filter (entries : List (String × α)) (keep : String → Bool) (name : String) :
    find? (entries.filter fun entry => keep entry.1) name =
      if keep name then find? entries name else none := by
  induction entries with
  | nil => simp
  | cons entry rest ih =>
    obtain ⟨key, held⟩ := entry
    by_cases hkey : key = name <;> by_cases hkeep : keep key <;>
      simp_all [find?_cons]

@[simp] theorem mem_names_put {name key : String} {value : α} :
    key ∈ names (put entries name value) ↔ key = name ∨ key ∈ names entries := by
  rw [mem_names_iff, find?_put, mem_names_iff]
  by_cases hname : name = key <;> simp [hname, eq_comm]

@[simp] theorem mem_names_erase {name key : String} :
    key ∈ names (erase entries name) ↔ key ≠ name ∧ key ∈ names entries := by
  rw [mem_names_iff, find?_erase, mem_names_iff]
  by_cases hname : name = key <;> simp [hname, eq_comm]

theorem put_put (entries : List (String × α)) (name : String) (first second : α) :
    put (put entries name first) name second = put entries name second := by
  induction entries with
  | nil => simp [put]
  | cons entry rest ih =>
    obtain ⟨key, held⟩ := entry
    by_cases hkey : key = name <;> simp [put, hkey, ih]

theorem put_of_find? {name : String} {value : α} (hfind : find? entries name = some value) :
    put entries name value = entries := by
  induction entries with
  | nil => cases hfind
  | cons entry rest ih =>
    obtain ⟨key, held⟩ := entry
    rw [find?_cons] at hfind
    by_cases hkey : key = name
    · simp_all [put]
    · simp_all [put]

/-- Of entries with distinct names put one after another, each is found. -/
theorem find?_putAll {items : List (String × α)} (hnames : (names items).Nodup)
    (held : List (String × α)) (name : String) :
    find? (items.foldl (fun held entry => put held entry.1 entry.2) held) name =
      (find? items name).or (find? held name) := by
  induction items generalizing held with
  | nil => rfl
  | cons item rest ih =>
    obtain ⟨key, value⟩ := item
    obtain ⟨hfresh, hrest⟩ := List.nodup_cons.mp hnames
    rw [List.foldl_cons, ih hrest, find?_put, find?_cons]
    by_cases hkey : key = name
    · have hnone : find? rest name = none := by
        by_contra hsome
        exact hfresh (hkey ▸ mem_names_iff.mpr hsome)
      simp [hkey, hnone]
    · simp [hkey]

theorem nodup_putAll (items : List (String × α)) {held : List (String × α)}
    (hheld : (names held).Nodup) :
    (names (items.foldl (fun held entry => put held entry.1 entry.2) held)).Nodup := by
  induction items generalizing held with
  | nil => exact hheld
  | cons item rest ih => exact ih (nodup_put hheld item.1 item.2)

/-! ### Ascending entries -/

/-- The names ascend, so that none of them comes twice. -/
def Ascending (entries : List (String × α)) : Prop :=
  entries.Pairwise fun left right => left.1 < right.1

theorem Ascending.nodup (hascending : Ascending entries) : (names entries).Nodup := by
  refine List.Pairwise.map Prod.fst ?_ hascending
  intro left right hless hsame
  rw [hsame] at hless
  exact String.lt_irrefl _ hless

theorem mem_insert {name : String} {value : α} {entry : String × α}
    (hmem : entry ∈ insert entries name value) : entry = (name, value) ∨ entry ∈ entries := by
  induction entries with
  | nil => exact .inl (List.mem_singleton.mp hmem)
  | cons first rest ih =>
    obtain ⟨key, held⟩ := first
    unfold insert at hmem
    split at hmem
    · exact List.mem_cons.mp hmem
    · split at hmem
      · rcases List.mem_cons.mp hmem with hnew | hmem
        · exact .inl hnew
        · exact .inr (List.mem_cons_of_mem _ hmem)
      · rcases List.mem_cons.mp hmem with hfirst | hmem
        · exact .inr (hfirst ▸ List.mem_cons_self)
        · exact (ih hmem).imp id (List.mem_cons_of_mem _)

theorem Ascending.insert (hascending : Ascending entries) (name : String) (value : α) :
    Ascending (insert entries name value) := by
  induction entries with
  | nil => exact List.pairwise_singleton _ _
  | cons first rest ih =>
    obtain ⟨key, held⟩ := first
    obtain ⟨hfirst, hrest⟩ := List.pairwise_cons.mp hascending
    unfold Entries.insert
    split
    · rename_i hless
      refine List.pairwise_cons.mpr ⟨?_, hascending⟩
      intro entry hmem
      rcases List.mem_cons.mp hmem with rfl | hmem
      · exact hless
      · exact String.lt_trans hless (hfirst entry hmem)
    · rename_i hnotLess
      split
      · rename_i hsame
        refine List.pairwise_cons.mpr ⟨?_, hrest⟩
        rw [← hsame]
        exact hfirst
      · rename_i hdifferent
        refine List.pairwise_cons.mpr ⟨?_, ih hrest⟩
        intro entry hmem
        rcases mem_insert hmem with rfl | hmem
        · by_contra hnotGreater
          exact hdifferent (String.le_antisymm (String.not_lt.mp hnotLess)
            (String.not_lt.mp hnotGreater))
        · exact hfirst entry hmem

theorem mem_sorted {entry : String × α} (hmem : entry ∈ sorted entries) : entry ∈ entries := by
  have hfold : ∀ items held : List (String × α),
      entry ∈ items.foldl (fun held entry => Entries.insert held entry.1 entry.2) held →
      entry ∈ held ∨ entry ∈ items := by
    intro items
    induction items with
    | nil => exact fun held hmem => .inl hmem
    | cons item rest ih =>
      intro held hmem
      rcases ih _ hmem with hheld | hrest
      · rcases mem_insert hheld with hitem | hheld
        · exact .inr (hitem ▸ List.mem_cons_self)
        · exact .inl hheld
      · exact .inr (List.mem_cons_of_mem _ hrest)
  rcases hfold entries [] hmem with hnone | hmem
  · cases hnone
  · exact hmem

/-- Sorting loses no name. -/
theorem exists_find?_sorted {name : String} {value : α} (hmem : (name, value) ∈ entries) :
    ∃ held, find? (sorted entries) name = some held := by
  have hfold : ∀ items held : List (String × α),
      ((∃ value, (name, value) ∈ items) ∨ ∃ value, find? held name = some value) →
      ∃ value, find? (items.foldl (fun held entry => Entries.insert held entry.1 entry.2) held) name =
        some value := by
    intro items
    induction items with
    | nil =>
      rintro held (⟨value, hnone⟩ | hheld)
      · cases hnone
      · exact hheld
    | cons entry rest ih =>
      intro held hsome
      apply ih
      rw [find?_insert]
      by_cases hname : entry.1 = name
      · exact .inr ⟨entry.2, if_pos hname⟩
      · rw [if_neg hname]
        apply hsome.imp_left
        rintro ⟨value, hmem⟩
        rcases List.mem_cons.mp hmem with rfl | hmem
        · exact absurd rfl hname
        · exact ⟨value, hmem⟩
  exact hfold entries [] (.inl ⟨value, hmem⟩)

theorem ascending_sorted (entries : List (String × α)) : Ascending (sorted entries) := by
  have hfold : ∀ items held : List (String × α), Ascending held →
      Ascending (items.foldl (fun held entry => Entries.insert held entry.1 entry.2) held) := by
    intro items
    induction items with
    | nil => exact fun held hheld => hheld
    | cons item rest ih => exact fun held hheld => ih _ (hheld.insert _ _)
  exact hfold entries [] .nil

theorem insert_map (change : α → β) (name : String) (value : α) :
    insert (entries.map fun entry => (entry.1, change entry.2)) name (change value) =
      (insert entries name value).map fun entry => (entry.1, change entry.2) := by
  induction entries with
  | nil => rfl
  | cons first rest ih =>
    obtain ⟨key, held⟩ := first
    rw [List.map_cons, insert, insert, ih]
    split
    · rfl
    · split <;> rfl

theorem sorted_map (change : α → β) (entries : List (String × α)) :
    sorted (entries.map fun entry => (entry.1, change entry.2)) =
      (sorted entries).map fun entry => (entry.1, change entry.2) := by
  have hfold : ∀ items held : List (String × α),
      (items.map fun entry => (entry.1, change entry.2)).foldl
          (fun held entry => Entries.insert held entry.1 entry.2)
          (held.map fun entry => (entry.1, change entry.2)) =
        (items.foldl (fun held entry => Entries.insert held entry.1 entry.2) held).map
          fun entry => (entry.1, change entry.2) := by
    intro items
    induction items with
    | nil => exact fun held => rfl
    | cons item rest ih =>
      intro held
      rw [List.map_cons, List.foldl_cons, insert_map, ih, List.foldl_cons]
  exact hfold entries []

/-- Among entries with distinct names, sorting changes nothing but the order. -/
theorem find?_sorted (hnames : (names entries).Nodup) (name : String) :
    find? (sorted entries) name = find? entries name := by
  have hfold : ∀ items held : List (String × α), (names items).Nodup →
      find? (items.foldl (fun held entry => Entries.insert held entry.1 entry.2) held) name =
        (find? items name).or (find? held name) := by
    intro items
    induction items with
    | nil => exact fun held _ => rfl
    | cons item rest ih =>
      intro held hitems
      obtain ⟨hfresh, hrest⟩ := List.nodup_cons.mp hitems
      rw [List.foldl_cons, ih _ hrest, find?_insert, find?_cons]
      split
      · rename_i hname
        have hnone : find? rest name = none := by
          rw [find?_eq_none_iff]
          rintro entry hmem rfl
          rw [hname] at hfresh
          exact hfresh (List.mem_map_of_mem hmem)
        rw [hnone]
        rfl
      · rfl
  rw [sorted, hfold entries [] hnames, find?_nil, Option.or_none]

theorem Ascending.mem_iff (hascending : Ascending entries) {name : String} {value : α} :
    (name, value) ∈ entries ↔ find? entries name = some value :=
  ⟨find?_of_mem hascending.nodup, mem_of_find?⟩

theorem perm_sorted (hnames : (names entries).Nodup) : (sorted entries).Perm entries := by
  have hsorted := ascending_sorted entries
  refine (List.perm_ext_iff_of_nodup (List.Nodup.of_map Prod.fst hsorted.nodup)
    (List.Nodup.of_map Prod.fst hnames)).mpr ?_
  rintro ⟨name, value⟩
  rw [hsorted.mem_iff, find?_sorted hnames]
  exact ⟨mem_of_find?, find?_of_mem hnames⟩

theorem Ascending.ext_mem {left right : List (String × α)} (hleft : Ascending left)
    (hright : Ascending right) (hsame : ∀ entry, entry ∈ left ↔ entry ∈ right) : left = right := by
  have hperm : left.Perm right :=
    (List.perm_ext_iff_of_nodup (List.Nodup.of_map Prod.fst hleft.nodup)
      (List.Nodup.of_map Prod.fst hright.nodup)).mpr hsame
  refine List.Perm.eq_of_pairwise ?_ hleft hright hperm
  intro first second _ _ hless hgreater
  exact absurd hgreater (String.lt_asymm hless)

/-- Ascending entries are determined by what they hold under each name. -/
theorem Ascending.ext {left right : List (String × α)} (hleft : Ascending left)
    (hright : Ascending right) (hsame : ∀ name, find? left name = find? right name) :
    left = right := by
  refine hleft.ext_mem hright ?_
  rintro ⟨name, value⟩
  rw [hleft.mem_iff, hright.mem_iff, hsame]

end RecordStore.Entries
