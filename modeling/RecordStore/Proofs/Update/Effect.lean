import RecordStore.Proofs.Schema.Accepted
import RecordStore.Proofs.Update.Edit

/-!
# What clauses leave of an attribute

The clauses of a pending change are edits at or below the path of the changed field, so that they
leave something of the attribute at that path, whatever the others hold.
-/

namespace RecordStore

open Expression (Action Change Clauses Edit Fault)

/-! ### Clauses that are edits -/

namespace Expression

namespace Edit

variable {edit : Edit} {path : List String}

theorem under_action (path : List String) (change : Change) :
    ((⟨[], change⟩ : Edit).under path).action = change.action path := by
  rw [action, under, List.append_nil]

theorem under_under (outer inner : List String) (edit : Edit) :
    (edit.under inner).under outer = edit.under (outer ++ inner) := by
  rw [under, under, under, List.append_assoc]

theorem under_action_injective (path : List String) :
    Function.Injective fun edit : Edit => (edit.under path).action := by
  intro left right hsame
  have hunder := action_injective hsame
  obtain ⟨leftPath, leftChange⟩ := left
  obtain ⟨rightPath, rightChange⟩ := right
  injection hunder with hpath hchange
  have hpath : leftPath = rightPath := List.append_cancel_left hpath
  have hchange : leftChange = rightChange := hchange
  rw [hpath, hchange]

theorem ascending_of_assign {item later : Item} {path : List String} {value : Attribute}
    (hascending : Entries.Ascending item) (hassign : assign item path value = .ok later) :
    Entries.Ascending later := by
  unfold assign at hassign
  split at hassign
  · rename_i hassigned
    cases hassign
    match path with
    | [] => cases hassigned
    | [name] =>
      cases hassigned
      exact hascending.insert name value
    | name :: next :: rest =>
      rw [Item.assign?] at hassigned
      split at hassigned
      · obtain ⟨entries, _, rfl⟩ := Option.map_eq_some_iff.mp hassigned
        exact hascending.insert name _
      · cases hassigned
  · cases hassign

theorem ascending_remove {item : Item} (hascending : Entries.Ascending item) (path : List String) :
    Entries.Ascending (Item.remove item path) := by
  match path with
  | [] => exact hascending
  | [name] => exact Item.ascending_erase hascending name
  | name :: next :: rest =>
    rw [Item.remove]
    split
    · exact hascending.insert name _
    · exact hascending

/-- Edits keep the attributes of an item by ascending names. -/
theorem ascending_of_applyAll {before item later : Item} {edits : List Edit}
    (hascending : Entries.Ascending item) (happly : applyAll before item edits = .ok later) :
    Entries.Ascending later := by
  induction edits generalizing item with
  | nil =>
    cases happly
    exact hascending
  | cons edit rest ih =>
    obtain ⟨between, hfirst, hrest⟩ := bind_eq_ok_iff.mp happly
    refine ih ?_ hrest
    change (edit.change.action edit.path).apply before item = .ok between at hfirst
    by_cases hidle : edit.change.IsIdle (Item.resolve? item edit.path)
    · rw [Change.apply_of_idle hidle] at hfirst
      cases hfirst
      exact hascending
    · rw [Change.apply_of_not_idle hidle] at hfirst
      obtain ⟨left, _, hplace⟩ := bind_eq_ok_iff.mp hfirst
      cases left with
      | some value => exact ascending_of_assign hascending hplace
      | none =>
        cases hplace
        exact ascending_remove hascending edit.path

/-- Edits below a map are made of its entries. -/
theorem withinAll_of_applyAll_below (before : Option Attribute) {entries later : Item}
    {edits : List Edit} (hbelow : ∀ edit ∈ edits, edit.path ≠ [])
    (happly : applyAll (entriesOf before) entries edits = .ok later) :
    withinAll before (some (.map entries)) edits = .ok (some (.map later)) := by
  induction edits generalizing entries with
  | nil =>
    cases happly
    rfl
  | cons edit rest ih =>
    obtain ⟨between, hfirst, hrest⟩ := bind_eq_ok_iff.mp happly
    obtain ⟨path, change⟩ := edit
    cases path with
    | nil => exact absurd rfl (hbelow _ List.mem_cons_self)
    | cons first others =>
      have hwithin : within before (some (.map entries)) ⟨first :: others, change⟩ =
          .ok (some (.map between)) :=
        congrArg (Except.map fun later => some (Attribute.map later)) hfirst
      rw [withinAll, List.foldlM_cons, hwithin]
      exact ih (fun edit hmem => hbelow edit (.tail _ hmem)) hrest

end Edit

namespace Clauses

variable {path : List String} {clauses added : Clauses}

/-- Every action is an edit at or below a path. -/
def EditsBelow (path : List String) (clauses : Clauses) : Prop :=
  ∀ action ∈ clauses.actions, ∃ edit : Edit, (edit.under path).action = action

theorem editsBelow_none : EditsBelow path .none := by
  intro action hmem
  cases hmem

theorem EditsBelow.append (hclauses : clauses.EditsBelow path) (hadded : added.EditsBelow path) :
    (clauses ++ added).EditsBelow path := by
  intro action hmem
  exact (mem_actions_append.mp hmem).elim (hclauses action) (hadded action)

theorem EditsBelow.of_higher {name : String} (hedits : clauses.EditsBelow (path ++ [name])) :
    clauses.EditsBelow path := by
  intro action hmem
  obtain ⟨edit, rfl⟩ := hedits action hmem
  exact ⟨edit.under [name], by rw [Edit.under_under]⟩

/-- A single action at the path. -/
theorem editsBelow_single {change : Change} (hactions : clauses.actions = [change.action path]) :
    clauses.EditsBelow path := by
  intro action hmem
  rw [hactions, List.mem_singleton] at hmem
  exact ⟨⟨[], change⟩, by rw [Edit.under_action, hmem]⟩

theorem editsBelow_gather {α : Type} {write : α → Except Error Clauses} {items : List α}
    (hwrite : ∀ item added, write item = .ok added → added.EditsBelow path)
    (hgather : gather write items = .ok clauses) : clauses.EditsBelow path := by
  induction items generalizing clauses with
  | nil =>
    cases hgather
    exact editsBelow_none
  | cons item rest ih =>
    obtain ⟨first, hfirst, hothers⟩ := bind_eq_ok_iff.mp hgather
    obtain ⟨others, hrest, hdone⟩ := bind_eq_ok_iff.mp hothers
    cases hdone
    exact (hwrite item first hfirst).append (ih hrest)

end Clauses

end Expression

/-! ### Edits of changed fields -/

section Changes

open Expression.Clauses (editsBelow_none editsBelow_single editsBelow_gather)

variable {table : TableSchema} {path : List String} {added : Clauses}

theorem editsBelow_valueClauses {type : ValueType} {value : Value}
    (hadded : valueClauses table path type value = .ok added) : added.EditsBelow path := by
  obtain ⟨stored, _, rfl⟩ := map_eq_ok_iff.mp hadded
  exact @editsBelow_single _ _ (.assign stored) rfl

theorem editsBelow_fieldClauses {field : FieldSchema} {value : Value}
    (hadded : fieldClauses table path field value = .ok added) : added.EditsBelow path := by
  unfold fieldClauses at hadded
  split at hadded
  · cases hadded
    exact @editsBelow_single _ _ .clear rfl
  · obtain ⟨stored, _, rfl⟩ := map_eq_ok_iff.mp hadded
    exact @editsBelow_single _ _ (.assign stored) rfl

theorem editsBelow_increaseClauses {amount : Number} {element : ElementType}
    (hadded : increaseClauses path amount element = .ok added) : added.EditsBelow path := by
  unfold increaseClauses Expression.Builder.incrementClauses at hadded
  split at hadded
  · split at hadded
    · cases hadded
      exact @editsBelow_single _ _ (.add (.number (amount.narrow element).text)) rfl
    · cases hadded
      exact @editsBelow_single _ _ (.increase (.number (Number.zero element).text)
        (.number (amount.narrow element).text)) rfl
  · cases hadded

theorem editsBelow_elementClauses {kind : Kind} {type : ValueType} {form : Attribute → Clauses}
    {elements : List Value} (hform : ∀ encoded, (form encoded).EditsBelow path)
    (hadded : elementClauses table kind type form elements = .ok added) : added.EditsBelow path := by
  unfold elementClauses at hadded
  split at hadded
  · cases hadded
    exact editsBelow_none
  · obtain ⟨encoded, _, rfl⟩ := map_eq_ok_iff.mp hadded
    exact hform encoded

namespace MapDelta

variable {delta : MapDelta} {element : ElementType}

theorem editsBelow_updateClauses {entry : String × Value}
    (hadded : delta.updateClauses table path element entry = .ok added) :
    added.EditsBelow (path ++ [entry.1]) := by
  unfold updateClauses at hadded
  split at hadded
  · cases hadded
    exact editsBelow_none
  · exact editsBelow_valueClauses hadded

theorem editsBelow_amountClauses {entry : String × Number}
    (hadded : delta.amountClauses path element entry = .ok added) :
    added.EditsBelow (path ++ [entry.1]) := by
  unfold amountClauses at hadded
  split at hadded
  · cases hadded
    exact editsBelow_none
  · exact editsBelow_increaseClauses hadded

theorem editsBelow_deleteClauses {name : String} (hadded : deleteClauses path name = .ok added) :
    added.EditsBelow (path ++ [name]) := by
  cases hadded
  exact @editsBelow_single _ _ .clear rfl

theorem editsBelow_clauses (hadded : delta.clauses table path element = .ok added) :
    added.EditsBelow path := by
  obtain ⟨updates, hupdates, hadded⟩ := bind_eq_ok_iff.mp hadded
  obtain ⟨amounts, hamounts, hadded⟩ := bind_eq_ok_iff.mp hadded
  obtain ⟨deletes, hdeletes, hdone⟩ := bind_eq_ok_iff.mp hadded
  cases hdone
  refine (editsBelow_gather ?_ hupdates).append ((editsBelow_gather ?_ hamounts).append
    (editsBelow_gather ?_ hdeletes))
  · exact fun entry written hwritten => (editsBelow_updateClauses hwritten).of_higher
  · exact fun entry written hwritten => (editsBelow_amountClauses hwritten).of_higher
  · exact fun name written hwritten => (editsBelow_deleteClauses hwritten).of_higher

end MapDelta

theorem CollectionDelta.editsBelow_clauses {delta : CollectionDelta} {type : ValueType}
    {base : Value} (hadded : delta.clauses table path type base = .ok added) :
    added.EditsBelow path := by
  unfold CollectionDelta.clauses at hadded
  split at hadded
  · cases hadded
    exact editsBelow_none
  · obtain ⟨element, _, hadded⟩ := bind_eq_ok_iff.mp hadded
    obtain ⟨merged, _, hadded⟩ := bind_eq_ok_iff.mp hadded
    split at hadded
    · exact editsBelow_valueClauses hadded
    · cases delta with
      | map delta => exact MapDelta.editsBelow_clauses hadded
      | set delta =>
        dsimp only at hadded
        split at hadded
        · exact editsBelow_valueClauses hadded
        · obtain ⟨adds, hadds, hadded⟩ := bind_eq_ok_iff.mp hadded
          obtain ⟨deletes, hdeletes, hdone⟩ := bind_eq_ok_iff.mp hadded
          cases hdone
          refine (editsBelow_elementClauses (fun encoded => ?_) hadds).append
            (editsBelow_elementClauses (fun encoded => ?_) hdeletes)
          · exact @editsBelow_single _ _ (.add encoded) rfl
          · exact @editsBelow_single _ _ (.delete encoded) rfl
      | list delta =>
        refine editsBelow_elementClauses (fun encoded => ?_) hadded
        exact @editsBelow_single _ _ (.append encoded) rfl

mutual

/-- The clauses of a pending change are edits at or below the path of its field. -/
theorem FieldMutation.editsBelow_clauses {field : FieldSchema} {path : List String} {base : Value}
    {added : Clauses} : (mutation : FieldMutation) →
      mutation.clauses table field path base = .ok added → added.EditsBelow path
  | .scalar delta => by
    intro hadded
    unfold clauses at hadded
    split at hadded
    · cases hadded
      exact @editsBelow_single _ _ .clear rfl
    · split at hadded
      · exact editsBelow_fieldClauses hadded
      · obtain ⟨element, _, hadded⟩ := bind_eq_ok_iff.mp hadded
        split at hadded
        · exact editsBelow_increaseClauses hadded
        · obtain ⟨latest, _, hadded⟩ := bind_eq_ok_iff.mp hadded
          exact editsBelow_fieldClauses hadded
      · cases hadded
        exact editsBelow_none
  | .collection delta => by
    intro hadded
    unfold clauses at hadded
    split at hadded
    · exact CollectionDelta.editsBelow_clauses hadded
    · obtain ⟨element, _, hadded⟩ := bind_eq_ok_iff.mp hadded
      obtain ⟨latest, _, hadded⟩ := bind_eq_ok_iff.mp hadded
      exact editsBelow_fieldClauses hadded
  | .object nested mutations => by
    intro hadded
    unfold clauses at hadded
    obtain ⟨type, _, hadded⟩ := bind_eq_ok_iff.mp hadded
    split at hadded
    · obtain ⟨record, _, hadded⟩ := bind_eq_ok_iff.mp hadded
      exact editsBelow_fieldClauses hadded
    · intro action hmem
      obtain ⟨field, _, _, edit, hedit⟩ := editsBelow_objectClauses mutations hadded action hmem
      exact ⟨edit.under [field.wireName], by rw [Edit.under_under, hedit]⟩

/-- Each clause of an object is an edit at or below the path of a persisted field. -/
theorem FieldMutation.editsBelow_objectClauses {type : TypeSchema} {base : Record}
    {path : List String} {added : Clauses} : (mutations : List (String × FieldMutation)) →
      objectClauses table type base path mutations = .ok added →
      ∀ action ∈ added.actions, ∃ field ∈ type.fields, field.persist = true ∧
        ∃ edit : Edit, (edit.under (path ++ [field.wireName])).action = action
  | [] => by
    intro hadded
    cases hadded
    exact fun action hmem => absurd hmem List.not_mem_nil
  | (name, mutation) :: rest => by
    intro hadded
    unfold objectClauses at hadded
    obtain ⟨field, hfield, hadded⟩ := bind_eq_ok_iff.mp hadded
    obtain ⟨others, hothers, hadded⟩ := bind_eq_ok_iff.mp hadded
    have hrest := editsBelow_objectClauses rest hothers
    split at hadded
    · rename_i hwritten
      obtain ⟨first, hfirst, rfl⟩ := map_eq_ok_iff.mp hadded
      intro action hmem
      rcases Clauses.mem_actions_append.mp hmem with hmem | hmem
      · have hpersist : field.persist = true := (Bool.and_eq_true_iff.mp hwritten).1
        exact ⟨field, TypeSchema.mem_of_requireField hfield, hpersist,
          editsBelow_clauses mutation hfirst action hmem⟩
      · exact hrest action hmem
    · cases hadded
      exact hrest

end

end Changes

/-! ### Actions at a path -/

namespace Expression.Clauses

variable {path : List String} {name other : String} {clauses added : Clauses}

/-- The actions at or below a path, in the order in which an update makes them. -/
def actionsAt (path : List String) (clauses : Clauses) : List Action :=
  clauses.actions.filter fun action => path.isPrefixOf action.path

theorem actionsAt_eq_nil_iff :
    clauses.actionsAt path = [] ↔ ∀ action ∈ clauses.actions, ¬ path <+: action.path := by
  simp [actionsAt]

theorem actionsAt_of_editsBelow (hedits : clauses.EditsBelow path) :
    clauses.actionsAt path = clauses.actions := by
  refine List.filter_eq_self.mpr fun action hmem => ?_
  obtain ⟨edit, rfl⟩ := hedits action hmem
  rw [List.isPrefixOf_iff_prefix, Edit.path_action]
  exact List.prefix_append path edit.path

theorem actionsAt_of_other (hedits : clauses.EditsBelow (path ++ [other])) (hne : other ≠ name) :
    clauses.actionsAt (path ++ [name]) = [] := by
  refine actionsAt_eq_nil_iff.mpr fun action hmem hprefix => hne ?_
  obtain ⟨edit, rfl⟩ := hedits action hmem
  rw [Edit.path_action, Edit.under, List.append_assoc, List.prefix_append_right_inj] at hprefix
  exact (List.cons_prefix_cons.mp hprefix).1.symm

theorem actionsAt_append :
    (clauses ++ added).actionsAt path =
      clauses.set.filter (fun action => path.isPrefixOf action.path) ++
      added.set.filter (fun action => path.isPrefixOf action.path) ++
      (clauses.remove.filter (fun action => path.isPrefixOf action.path) ++
      added.remove.filter (fun action => path.isPrefixOf action.path) ++
      (clauses.add.filter (fun action => path.isPrefixOf action.path) ++
      added.add.filter (fun action => path.isPrefixOf action.path) ++
      (clauses.delete.filter (fun action => path.isPrefixOf action.path) ++
      added.delete.filter fun action => path.isPrefixOf action.path))) := by
  simp [actionsAt, actions]

/-- Clauses that act elsewhere add nothing. -/
theorem actionsAt_append_left (hadded : added.actionsAt path = []) :
    (clauses ++ added).actionsAt path = clauses.actionsAt path := by
  rw [actionsAt_append]
  simp only [actionsAt, actions, List.filter_append, List.append_eq_nil_iff] at hadded ⊢
  obtain ⟨hset, hremove, hadd, hdelete⟩ := hadded
  rw [hset, hremove, hadd, hdelete]
  simp only [List.append_nil]

theorem actionsAt_append_right (hclauses : clauses.actionsAt path = []) :
    (clauses ++ added).actionsAt path = added.actionsAt path := by
  rw [actionsAt_append]
  simp only [actionsAt, actions, List.filter_append, List.append_eq_nil_iff] at hclauses ⊢
  obtain ⟨hset, hremove, hadd, hdelete⟩ := hclauses
  rw [hset, hremove, hadd, hdelete]
  simp only [List.nil_append]

section Gathered

variable {α : Type} {nameOf : α → String} {write : α → Except Error Clauses} {items : List α}

/-- Nothing acts at a name that no item has. -/
theorem actionsAt_gather_of_fresh (hwrite : ∀ item ∈ items, ∀ part, write item = .ok part →
      part.EditsBelow (path ++ [nameOf item])) (hgather : gather write items = .ok clauses)
    (hfresh : name ∉ items.map nameOf) : clauses.actionsAt (path ++ [name]) = [] := by
  induction items generalizing clauses with
  | nil =>
    cases hgather
    rfl
  | cons item rest ih =>
    obtain ⟨first, hfirst, hothers⟩ := bind_eq_ok_iff.mp hgather
    obtain ⟨others, hrest, hdone⟩ := bind_eq_ok_iff.mp hothers
    cases hdone
    rw [List.map_cons, List.mem_cons, not_or] at hfresh
    have hitem := actionsAt_of_other (hwrite item List.mem_cons_self first hfirst)
      (Ne.symm hfresh.1)
    rw [actionsAt_append_right hitem]
    exact ih (fun item hmem => hwrite item (.tail _ hmem)) hrest hfresh.2

/-- At the name of an item acts what is written for the item. -/
theorem actionsAt_gather (hwrite : ∀ item ∈ items, ∀ part, write item = .ok part →
      part.EditsBelow (path ++ [nameOf item])) (hgather : gather write items = .ok clauses)
    (hnames : (items.map nameOf).Nodup) {item : α} (hmem : item ∈ items) :
    ∃ part, write item = .ok part ∧ clauses.actionsAt (path ++ [nameOf item]) = part.actions := by
  induction items generalizing clauses with
  | nil => cases hmem
  | cons other rest ih =>
    obtain ⟨first, hfirst, hothers⟩ := bind_eq_ok_iff.mp hgather
    obtain ⟨others, hrest, hdone⟩ := bind_eq_ok_iff.mp hothers
    cases hdone
    obtain ⟨hfresh, hnames⟩ := List.nodup_cons.mp hnames
    have hwriteRest := fun item (hmem : item ∈ rest) => hwrite item (.tail _ hmem)
    have hother := hwrite other List.mem_cons_self first hfirst
    rcases List.mem_cons.mp hmem with rfl | hmem
    · refine ⟨first, hfirst, ?_⟩
      rw [actionsAt_append_left (actionsAt_gather_of_fresh hwriteRest hrest hfresh),
        actionsAt_of_editsBelow hother]
    · have hne : nameOf other ≠ nameOf item :=
        fun hsame => hfresh (hsame ▸ List.mem_map_of_mem hmem)
      rw [actionsAt_append_right (actionsAt_of_other hother hne)]
      exact ih hwriteRest hrest hnames hmem

end Gathered

end Expression.Clauses

/-! ### What is left -/

namespace Expression.Clauses

variable {path : List String} {clauses added : Clauses} {before after : Option Attribute}

/-- Clauses at or below the path of an attribute leave something of it. -/
def Leaves (path : List String) (clauses : Clauses) (before after : Option Attribute) : Prop :=
  ∃ edits : List Edit, clauses.actions = edits.map (fun edit => (edit.under path).action) ∧
    Edit.withinAll before before edits = .ok after

theorem leaves_of_nil (hactions : clauses.actions = []) :
    clauses.Leaves path before after ↔ after = before := by
  constructor
  · rintro ⟨edits, hedits, hwithin⟩
    rw [hactions] at hedits
    rw [List.map_eq_nil_iff.mp hedits.symm] at hwithin
    exact (Except.ok.inj hwithin).symm
  · rintro rfl
    exact ⟨[], hactions, rfl⟩

theorem leaves_single {change : Change} (hactions : clauses.actions = [change.action path]) :
    clauses.Leaves path before after ↔ change.result before before = .ok after := by
  have hmap : [change.action path] = [(⟨[], change⟩ : Edit)].map
      (fun edit => (edit.under path).action) := by
    rw [List.map_singleton, Edit.under_action]
  have hwithin : Edit.withinAll before before [⟨[], change⟩] = change.result before before := by
    rw [Edit.withinAll, List.foldlM_cons]
    exact bind_pure _
  constructor
  · rintro ⟨edits, hedits, hleft⟩
    rw [hactions, hmap] at hedits
    rw [← List.map_injective_iff.mpr (Edit.under_action_injective path) hedits, hwithin] at hleft
    exact hleft
  · intro hresult
    exact ⟨[⟨[], change⟩], hactions.trans hmap, hwithin.trans hresult⟩

/-- The edits below one name are the edits within its entry. -/
theorem filter_under (path : List String) (name : String) (edits : List Edit) :
    (edits.map fun edit => (edit.under path).action).filter
        (fun action => (path ++ [name]).isPrefixOf action.path) =
      (edits.filterMap (Edit.strip name)).map
        fun edit => (edit.under (path ++ [name])).action := by
  induction edits with
  | nil => rfl
  | cons edit rest ih =>
    have hbelow : (path ++ [name]).isPrefixOf (edit.under path).action.path = true ↔
        ∃ stripped, edit.strip name = some stripped := by
      rw [List.isPrefixOf_iff_prefix, Edit.path_action, Edit.under, List.prefix_append_right_inj]
      constructor
      · rintro ⟨below, hpath⟩
        exact ⟨⟨below, edit.change⟩, Edit.strip_eq_some_iff.mpr (by rw [Edit.under, hpath])⟩
      · rintro ⟨stripped, hstrip⟩
        rw [← Edit.strip_eq_some_iff.mp hstrip]
        exact List.prefix_append _ _
    rw [List.map_cons]
    cases hstrip : edit.strip name with
    | none =>
      rw [List.filterMap_cons_none hstrip, List.filter_cons, if_neg, ih]
      rw [hbelow, hstrip]
      simp
    | some stripped =>
      rw [List.filterMap_cons_some hstrip, List.filter_cons, if_pos (hbelow.mpr ⟨_, hstrip⟩), ih,
        List.map_cons, ← Edit.under_under, Edit.strip_eq_some_iff.mp hstrip]

/-- Clauses below a map leave a map, and those below each name what is left of its entry. -/
theorem Leaves.through {entries : Item}
    (hleaves : clauses.Leaves path (some (.map entries)) after)
    (hstrict : ∀ action ∈ clauses.actions, action.path ≠ path) :
    ∃ later, after = some (.map later) ∧ (Entries.Ascending entries → Entries.Ascending later) ∧
      ∀ (name : String) (part : Clauses),
        clauses.actionsAt (path ++ [name]) = part.actions →
        part.Leaves (path ++ [name]) (Item.get? entries name) (Item.get? later name) := by
  obtain ⟨edits, hedits, hwithin⟩ := hleaves
  have hbelow : ∀ edit ∈ edits, edit.path ≠ [] := by
    intro edit hmem hnil
    refine hstrict (edit.under path).action (hedits ▸ List.mem_map_of_mem hmem) ?_
    rw [Edit.path_action, Edit.under, hnil, List.append_nil]
  obtain ⟨later, happly, rfl⟩ := Edit.applyAll_of_withinAll hbelow hwithin
  refine ⟨later, rfl, fun hascending => Edit.ascending_of_applyAll hascending happly, ?_⟩
  intro name part hpart
  refine ⟨edits.filterMap (Edit.strip name), ?_, Edit.withinAll_of_applyAll happly name⟩
  rw [← hpart, actionsAt, hedits, filter_under]

/-- The clauses of an update leave the attributes of the item. -/
theorem leaves_of_applyActions {item later : Item} (hedits : clauses.EditsBelow [])
    (hstrict : ∀ action ∈ clauses.actions, action.path ≠ [])
    (happly : applyActions item clauses.actions = .ok later) :
    clauses.Leaves [] (some (.map item)) (some (.map later)) := by
  have hrange : clauses.actions ∈ Set.range (List.map Edit.action) := by
    rw [Set.range_list_map]
    exact hedits
  obtain ⟨edits, hactions⟩ := hrange
  have hbelow : ∀ edit ∈ edits, edit.path ≠ [] := by
    intro edit hmem hnil
    refine hstrict edit.action (hactions ▸ List.mem_map_of_mem hmem) ?_
    rw [Edit.path_action, hnil]
  refine ⟨edits, hactions.symm, Edit.withinAll_of_applyAll_below (some (.map item)) hbelow ?_⟩
  rw [applyActions, ← hactions, List.foldlM_map] at happly
  exact happly

end Expression.Clauses

end RecordStore
