import RecordStore.Proofs.Update.Apart
import RecordStore.Proofs.Update.Fits
import RecordStore.Proofs.Update.View

/-!
# What an update leaves stored

The clauses of an object leave of the attribute of each field what the change of that field leaves of
it, and those of a map leave of each entry what is pending under its key. Everything else stays as it
was. A field that is not written relative to what is stored holds what the view shows.
-/

namespace RecordStore

open Expression (Action Change Clauses Edit applyActions)

namespace Expression.Clauses

variable {path : List String} {added : Clauses}

theorem path_ne_of_below {name : String} {longer : List String} (hbelow : path ++ [name] <+: longer) :
    longer ≠ path := by
  rintro rfl
  have hlength := hbelow.length_le
  simp at hlength

/-- Nothing acts at a name for which no item writes anything. -/
theorem actionsAt_gather_eq_nil {α : Type} {nameOf : α → String}
    {write : α → Except Error Clauses} {items : List α} {key : String}
    (hwrite : ∀ item part, write item = .ok part → part.EditsBelow (path ++ [nameOf item]))
    (hother : ∀ item part, write item = .ok part → part.actions ≠ [] → nameOf item ≠ key)
    (hgather : gather write items = .ok added) : added.actionsAt (path ++ [key]) = [] := by
  refine actionsAt_eq_nil_iff.mpr fun action hmem hextends => ?_
  obtain ⟨item, _, part, hpart, hmem⟩ := mem_gather hgather hmem
  exact hother item part hpart (List.ne_nil_of_mem hmem)
    (eq_of_below ((hwrite item part hpart).below action hmem) hextends)

/-- Nothing is left changed below what is not a map. -/
theorem Leaves.of_not_map {before after : Option Attribute} (hleaves : added.Leaves path before after)
    (hstrict : ∀ action ∈ added.actions, action.path ≠ path)
    (hmap : ∀ entries, before ≠ some (.map entries)) : after = before := by
  obtain ⟨edits, hedits, hwithin⟩ := hleaves
  have hbelow : ∀ edit ∈ edits, edit.path ≠ [] := by
    intro edit hmem hnil
    refine hstrict (edit.under path).action (hedits ▸ List.mem_map_of_mem hmem) ?_
    rw [Edit.path_action, Edit.under, hnil, List.append_nil]
  clear hedits
  induction edits with
  | nil => exact (Except.ok.inj hwithin).symm
  | cons edit rest ih =>
    obtain ⟨between, hfirst, hrest⟩ := bind_eq_ok_iff.mp hwithin
    obtain ⟨names, change⟩ := edit
    obtain ⟨first, others, rfl⟩ := List.exists_cons_of_ne_nil (hbelow _ List.mem_cons_self)
    rw [Edit.within_of_not_map _ hmap] at hfirst
    obtain ⟨left, _, hfirst⟩ := bind_eq_ok_iff.mp hfirst
    cases left <;> cases hfirst
    exact ih hrest fun edit hmem => hbelow edit (.tail _ hmem)

end Expression.Clauses

open Expression.Clauses (actionsAt_append_left actionsAt_append_right actionsAt_eq_nil_iff
  actionsAt_gather actionsAt_gather_eq_nil actionsAt_gather_of_fresh actionsAt_of_editsBelow
  actionsAt_of_other editsBelow_single leaves_of_applyActions leaves_of_nil
  leaves_single mem_actions_append mem_gather path_ne_of_below)

variable {table : TableSchema} {path : List String} {element : ElementType} {added part : Clauses}
  {before after held stored : Option Attribute} {entries : Item}

/-! ### Values -/

theorem leaves_valueClauses {type : ValueType} {value : Value}
    (hadded : valueClauses table path type value = .ok added) :
    added.Leaves path before after ↔
      ∃ stored, Codec.encode table .plain type value = .ok stored ∧ after = some stored := by
  obtain ⟨stored, hstored, rfl⟩ := map_eq_ok_iff.mp hadded
  rw [leaves_single (show _ = [(Change.assign stored).action path] from rfl), hstored]
  simp [Change.result, eq_comm]

/-- How a value is stored in a field, where null is not stored. -/
def FieldSchema.Stores (table : TableSchema) (field : FieldSchema) (value : Value)
    (stored : Option Attribute) : Prop :=
  if value.isNull then stored = none
  else ∃ encoded, Codec.encodeField table field value = .ok encoded ∧ stored = some encoded

theorem leaves_fieldClauses {field : FieldSchema} {value : Value}
    (hadded : fieldClauses table path field value = .ok added) :
    added.Leaves path before after ↔ field.Stores table value after := by
  unfold fieldClauses at hadded
  unfold FieldSchema.Stores
  split at hadded
  · cases hadded
    rw [leaves_single (show _ = [Change.clear.action path] from rfl), if_pos (by assumption)]
    simp [Change.result, eq_comm]
  · obtain ⟨stored, hstored, rfl⟩ := map_eq_ok_iff.mp hadded
    rw [leaves_single (show _ = [(Change.assign stored).action path] from rfl),
      if_neg (by assumption), hstored]
    simp [Change.result, eq_comm]

/-- An increase leaves a number: its sum with what was stored, or with zero where nothing was. -/
theorem increaseClauses_ok {amount : Number} (hpart : increaseClauses path amount element = .ok part)
    (hleaves : part.Leaves path held stored) :
    ∃ text, stored = some (.number text) ∧
      (held = none ∧ (text = (amount.narrow element).text ∨
          Expression.calculate Number.sum? (Number.zero element).text (amount.narrow element).text =
            .ok text) ∨
        ∃ present, held = some (.number present) ∧
          Expression.calculate Number.sum? present (amount.narrow element).text = .ok text) := by
  unfold increaseClauses Expression.Builder.incrementClauses at hpart
  split at hpart
  · split at hpart <;> cases hpart
    · rw [leaves_single (show _ = [(Change.add _).action path] from rfl)] at hleaves
      obtain ⟨after, hafter, rfl⟩ := map_eq_ok_iff.mp hleaves
      cases held with
      | none =>
        cases hafter
        exact ⟨_, rfl, .inl ⟨rfl, .inl rfl⟩⟩
      | some present =>
        cases present with
        | number present =>
          obtain ⟨text, hsum, rfl⟩ := map_eq_ok_iff.mp hafter
          exact ⟨text, rfl, .inr ⟨present, rfl, hsum⟩⟩
        | _ => cases hafter
    · rw [leaves_single (show _ = [(Change.increase _ _).action path] from rfl)] at hleaves
      cases held with
      | none =>
        obtain ⟨text, hsum, hstored⟩ := bind_eq_ok_iff.mp hleaves
        cases hstored
        exact ⟨text, rfl, .inl ⟨rfl, .inr hsum⟩⟩
      | some present =>
        cases present with
        | number present =>
          obtain ⟨text, hsum, hstored⟩ := bind_eq_ok_iff.mp hleaves
          cases hstored
          exact ⟨text, rfl, .inr ⟨present, rfl, hsum⟩⟩
        | _ => cases hleaves
  · cases hpart

/-! ### Entries of maps -/

namespace MapDelta

variable {delta : MapDelta}

/-- The clauses that write what is pending under a key. -/
def clausesAt (table : TableSchema) (path : List String) (element : ElementType) (delta : MapDelta)
    (key : String) : Except Error Clauses :=
  if key ∈ delta.deletes then deleteClauses path key
  else
    match Entries.find? delta.updates key, Entries.find? delta.amounts key with
    | some value, _ => valueClauses table (path ++ [key]) (.scalar element) value
    | .none, some amount => increaseClauses (path ++ [key]) amount element
    | .none, .none => .ok .none

/-- At a key acts what is pending under it, where a deletion wins over a value, and a value over an
amount. -/
theorem actionsAt_clauses (hdelta : delta.Distinct)
    (hadded : delta.clauses table path element = .ok added) (key : String) :
    ∃ part, delta.clausesAt table path element key = .ok part ∧
      added.actionsAt (path ++ [key]) = part.actions := by
  obtain ⟨updates, hupdates, hadded⟩ := bind_eq_ok_iff.mp hadded
  obtain ⟨amounts, hamounts, hadded⟩ := bind_eq_ok_iff.mp hadded
  obtain ⟨deletes, hdeletes, hdone⟩ := bind_eq_ok_iff.mp hadded
  cases hdone
  have hupdate := fun entry part => @editsBelow_updateClauses table path part delta element entry
  have hamount := fun entry part => @editsBelow_amountClauses path part delta element entry
  have hdelete := fun name part => @editsBelow_deleteClauses path part name
  unfold clausesAt
  by_cases hdeleted : key ∈ delta.deletes
  · have hupdatesAt : updates.actionsAt (path ++ [key]) = [] :=
      actionsAt_gather_eq_nil hupdate (fun entry part hpart hne =>
        (ne_of_mem_of_not_mem hdeleted ((updateClauses_ok hpart).2.2 hne)).symm) hupdates
    have hamountsAt : amounts.actionsAt (path ++ [key]) = [] :=
      actionsAt_gather_eq_nil hamount (fun entry part hpart hne =>
        (ne_of_mem_of_not_mem hdeleted ((amountClauses_ok hpart).2.2 hne).2).symm) hamounts
    rw [if_pos hdeleted, actionsAt_append_right hupdatesAt, actionsAt_append_right hamountsAt]
    exact @actionsAt_gather _ _ _ id _ _ (fun name _ => hdelete name) hdeletes
      (by simpa using hdelta.deletes) _ hdeleted
  · have hdeletesAt : deletes.actionsAt (path ++ [key]) = [] :=
      @actionsAt_gather_of_fresh _ _ _ _ id _ _ (fun name _ => hdelete name) hdeletes
        (by simpa using hdeleted)
    rw [if_neg hdeleted]
    cases hupdated : Entries.find? delta.updates key with
    | some value =>
      have hwritten : key ∈ Entries.names delta.updates :=
        List.mem_map_of_mem (Entries.mem_of_find? hupdated)
      have hamountsAt : amounts.actionsAt (path ++ [key]) = [] :=
        actionsAt_gather_eq_nil hamount (fun entry part hpart hne =>
          (ne_of_mem_of_not_mem hwritten ((amountClauses_ok hpart).2.2 hne).1).symm) hamounts
      obtain ⟨part, hpart, hupdatesAt⟩ := actionsAt_gather (fun entry _ => hupdate entry) hupdates
        hdelta.updates (Entries.mem_of_find? hupdated)
      rw [updateClauses, if_neg (by simpa using hdeleted)] at hpart
      refine ⟨part, hpart, ?_⟩
      rw [actionsAt_append_left ((actionsAt_append_right hamountsAt).trans hdeletesAt), hupdatesAt]
    | none =>
      have hfresh : key ∉ Entries.names delta.updates :=
        fun hmem => Entries.mem_names_iff.mp hmem hupdated
      have hupdatesAt : updates.actionsAt (path ++ [key]) = [] :=
        actionsAt_gather_of_fresh (fun entry _ => hupdate entry) hupdates hfresh
      rw [actionsAt_append_right hupdatesAt, actionsAt_append_left hdeletesAt]
      cases hincreased : Entries.find? delta.amounts key with
      | some amount =>
        obtain ⟨part, hpart, hamountsAt⟩ := actionsAt_gather (fun entry _ => hamount entry) hamounts
          hdelta.amounts (Entries.mem_of_find? hincreased)
        rw [amountClauses, if_neg (by simpa [Entries.contains, hupdated] using hdeleted)] at hpart
        exact ⟨part, hpart, hamountsAt⟩
      | none =>
        refine ⟨.none, rfl, ?_⟩
        exact actionsAt_gather_of_fresh (fun entry _ => hamount entry) hamounts
          fun hmem => Entries.mem_names_iff.mp hmem hincreased

/-- Every clause of a map is below one of its keys. -/
theorem exists_key_of_mem (hadded : delta.clauses table path element = .ok added) {action : Action}
    (hmem : action ∈ added.actions) : ∃ key, path ++ [key] <+: action.path := by
  obtain ⟨updates, hupdates, hadded⟩ := bind_eq_ok_iff.mp hadded
  obtain ⟨amounts, hamounts, hadded⟩ := bind_eq_ok_iff.mp hadded
  obtain ⟨deletes, hdeletes, hdone⟩ := bind_eq_ok_iff.mp hadded
  cases hdone
  rcases mem_actions_append.mp hmem with hmem | hmem
  · obtain ⟨entry, _, part, hpart, hmem⟩ := mem_gather hupdates hmem
    exact ⟨entry.1, (editsBelow_updateClauses hpart).below action hmem⟩
  · rcases mem_actions_append.mp hmem with hmem | hmem
    · obtain ⟨entry, _, part, hpart, hmem⟩ := mem_gather hamounts hmem
      exact ⟨entry.1, (editsBelow_amountClauses hpart).below action hmem⟩
    · obtain ⟨key, _, part, hpart, hmem⟩ := mem_gather hdeletes hmem
      exact ⟨key, (editsBelow_deleteClauses hpart).below action hmem⟩

/-- What the delta leaves stored under a key: nothing when it is deleted, its value when it is written,
what the amount leaves when it is added to, and what was there otherwise. -/
def StoresAt (table : TableSchema) (path : List String) (element : ElementType) (delta : MapDelta)
    (key : String) (held later : Option Attribute) : Prop :=
  if key ∈ delta.deletes then later = Option.none
  else
    match Entries.find? delta.updates key, Entries.find? delta.amounts key with
    | some value, _ => ∃ stored, Codec.encode table .plain (.scalar element) value = .ok stored ∧
        later = some stored
    | .none, some amount => ∃ part, increaseClauses (path ++ [key]) amount element = .ok part ∧
        part.Leaves (path ++ [key]) held later
    | .none, .none => later = held

theorem storesAt_of_leaves {key : String}
    (hpart : delta.clausesAt table path element key = .ok part)
    (hleaves : part.Leaves (path ++ [key]) before after) :
    delta.StoresAt table path element key before after := by
  unfold clausesAt at hpart
  unfold StoresAt
  split
  · rw [if_pos (by assumption)] at hpart
    cases hpart
    rw [leaves_single (show _ = [Change.clear.action (path ++ [key])] from rfl)] at hleaves
    exact (Except.ok.inj hleaves).symm
  · rw [if_neg (by assumption)] at hpart
    cases hupdated : Entries.find? delta.updates key with
    | some value =>
      rw [hupdated] at hpart
      exact (leaves_valueClauses hpart).mp hleaves
    | none =>
      rw [hupdated] at hpart
      cases hincreased : Entries.find? delta.amounts key with
      | some amount =>
        rw [hincreased] at hpart
        exact ⟨part, hpart, hleaves⟩
      | none =>
        rw [hincreased] at hpart
        cases hpart
        exact (leaves_of_nil rfl).mp hleaves

theorem path_ne_of_mem (hadded : delta.clauses table path element = .ok added) :
    ∀ action ∈ added.actions, action.path ≠ path := by
  intro action hmem
  obtain ⟨key, hbelow⟩ := exists_key_of_mem hadded hmem
  exact path_ne_of_below hbelow

/-- The clauses of a map leave a map with what is pending stored under each key. -/
theorem leaves_entries (hdelta : delta.Distinct)
    (hadded : delta.clauses table path element = .ok added)
    (hleaves : added.Leaves path (some (.map entries)) after) :
    ∃ later, after = some (.map later) ∧ (Entries.Ascending entries → Entries.Ascending later) ∧
      ∀ key, delta.StoresAt table path element key (Item.get? entries key) (Item.get? later key) := by
  obtain ⟨later, hafter, hascending, hparts⟩ := hleaves.through (path_ne_of_mem hadded)
  refine ⟨later, hafter, hascending, fun key => ?_⟩
  obtain ⟨part, hpart, hat⟩ := actionsAt_clauses hdelta hadded key
  exact storesAt_of_leaves hpart (hparts key part hat)

end MapDelta

/-! ### Collections -/

/-- What the clauses of a collection leave of its attribute. It is written whole if nothing is kept of
it, and so is a set that both gains and loses elements. Else each changed entry is written, or what is
gained or lost is added to what is stored or taken out of it. -/
inductive CollectionDelta.Stores (table : TableSchema) (path : List String) (element : ElementType)
    (base : Value) (held : Option Attribute) : CollectionDelta → Option Attribute → Prop where
  | whole {delta : CollectionDelta} {merged : Value} {encoded : Attribute}
    (keeps : delta.Keeps base → delta.kind = .set) (merge : delta.merge base element = .ok merged)
    (encode : Codec.encode table .plain ⟨delta.kind, some element⟩ merged = .ok encoded) :
    Stores table path element base held delta (some encoded)
  | entries {delta : MapDelta} {part : Clauses} {stored : Option Attribute}
    (keeps : (CollectionDelta.map delta).Keeps base)
    (clauses : delta.clauses table path element = .ok part)
    (leaves : part.Leaves path held stored) :
    Stores table path element base held (.map delta) stored
  | gained {delta : SetDelta} {encoded after : Attribute}
    (keeps : (CollectionDelta.set delta).Keeps base) (deletes : delta.deletes = [])
    (encode : Codec.encodeSet element delta.adds = .ok encoded)
    (add : Expression.added held encoded = .ok after) :
    Stores table path element base held (.set delta) (some after)
  | lost {delta : SetDelta} {encoded : Attribute} {stored : Option Attribute}
    (keeps : (CollectionDelta.set delta).Keeps base) (adds : delta.adds = [])
    (encode : Codec.encodeSet element delta.deletes = .ok encoded)
    (delete : (Change.delete encoded).result held held = .ok stored) :
    Stores table path element base held (.set delta) stored
  | appended {delta : ListDelta} {encoded : Attribute} {stored : Option Attribute}
    (keeps : (CollectionDelta.list delta).Keeps base)
    (encode : Codec.encode table .plain ⟨.list, some element⟩ (.list delta.appends) = .ok encoded)
    (append : Expression.appendOperands (held.getD (.list [])) encoded = .ok stored) :
    Stores table path element base held (.list delta) stored

namespace CollectionDelta

variable {delta : CollectionDelta} {base : Value} {kind : Kind}

/-- Elements that are added or taken out are encoded as a collection of their own. -/
theorem exists_of_elementClauses {form : Attribute → Clauses} {elements : List Value}
    (hne : elements ≠ [])
    (hpart : elementClauses table kind ⟨kind, some element⟩ form elements = .ok part) :
    ∃ encoded, Codec.encode table .plain ⟨kind, some element⟩ (.list elements) = .ok encoded ∧
      part = form encoded := by
  rw [elementClauses, if_neg (by simpa using hne)] at hpart
  obtain ⟨encoded, hencoded, rfl⟩ := map_eq_ok_iff.mp hpart
  exact ⟨encoded, hencoded, rfl⟩

theorem stores_of_leaves (hchanges : delta.isEmpty = false)
    (hpart : delta.clauses table path ⟨delta.kind, some element⟩ base = .ok part)
    (hleaves : part.Leaves path held stored) : delta.Stores table path element base held stored := by
  rw [clauses, hchanges, if_neg Bool.false_ne_true] at hpart
  obtain ⟨_, helement, hpart⟩ := bind_eq_ok_iff.mp hpart
  cases helement
  obtain ⟨merged, hmerge, hpart⟩ := bind_eq_ok_iff.mp hpart
  have hwhole : (delta.Keeps base → delta.kind = .set) →
      valueClauses table path ⟨delta.kind, some element⟩ merged = .ok part →
      delta.Stores table path element base held stored := by
    intro hkeeps hpart
    obtain ⟨encoded, hencode, rfl⟩ := (leaves_valueClauses hpart).mp hleaves
    exact .whole hkeeps hmerge hencode
  split at hpart
  · rename_i hnothing
    refine hwhole (fun hkeeps => ?_) hpart
    rw [hkeeps.1, hkeeps.2] at hnothing
    cases hnothing
  rename_i hkeeps
  rw [Bool.or_eq_true, not_or, Bool.not_eq_true, Bool.not_eq_true] at hkeeps
  cases delta with
  | map delta => exact .entries hkeeps hpart hleaves
  | set delta =>
    dsimp only at hpart
    split at hpart
    · exact hwhole (fun _ => rfl) hpart
    rename_i hone
    obtain ⟨adds, hadds, hpart⟩ := bind_eq_ok_iff.mp hpart
    obtain ⟨deletes, hdeletes, hdone⟩ := bind_eq_ok_iff.mp hpart
    cases hdone
    by_cases hadded : delta.adds = []
    · have hremoved : delta.deletes ≠ [] := by
        intro hnone
        rw [isEmpty, SetDelta.isEmpty, hadded, hnone, show delta.clear = false from hkeeps.1]
          at hchanges
        cases hchanges
      rw [hadded] at hadds
      cases hadds
      obtain ⟨encoded, hencode, rfl⟩ := exists_of_elementClauses hremoved hdeletes
      rw [leaves_single (show _ = [(Change.delete encoded).action path] from rfl)] at hleaves
      exact .lost hkeeps hadded hencode hleaves
    · have hremoved : delta.deletes = [] := by simpa [hadded] using hone
      rw [hremoved] at hdeletes
      cases hdeletes
      obtain ⟨encoded, hencode, rfl⟩ := exists_of_elementClauses hadded hadds
      rw [leaves_single (show _ = [(Change.add encoded).action path] from rfl)] at hleaves
      obtain ⟨after, hafter, rfl⟩ := map_eq_ok_iff.mp hleaves
      exact .gained hkeeps hremoved hencode hafter
  | list delta =>
    have happends : delta.appends ≠ [] := by
      intro hnone
      rw [isEmpty, ListDelta.isEmpty, hnone, show delta.clear = false from hkeeps.1] at hchanges
      cases hchanges
    obtain ⟨encoded, hencode, rfl⟩ := exists_of_elementClauses happends hpart
    rw [leaves_single (show _ = [(Change.append encoded).action path] from rfl)] at hleaves
    exact .appended hkeeps hencode hleaves

end CollectionDelta

/-! ### Fields of objects -/

namespace FieldMutation

variable {type : TypeSchema} {base : Record} {mutations : List (String × FieldMutation)}
  {counters : CounterNames} {field : FieldSchema}

/-- The clauses that write what is pending for a field. -/
def clausesOf (table : TableSchema) (path : List String) (base : Record)
    (mutations : List (String × FieldMutation)) (field : FieldSchema) : Except Error Clauses :=
  match Entries.find? mutations field.name with
  | some mutation =>
    if mutation.isEmpty then .ok .none
    else mutation.clauses table field (path ++ [field.wireName])
      ((base.get? field.name).getD .null)
  | none => .ok .none

/-- What is pending for a field leaves something of its attribute. -/
def LeavesField (table : TableSchema) (path : List String) (base : Record)
    (mutations : List (String × FieldMutation)) (field : FieldSchema)
    (held stored : Option Attribute) : Prop :=
  ∃ part, clausesOf table path base mutations field = .ok part ∧
    part.Leaves (path ++ [field.wireName]) held stored

/-- At the attribute of a field acts what is pending for the field. -/
theorem actionsAt_objectClauses (hfields : FieldsDistinct counters type.fields)
    (hnames : (Entries.names mutations).Nodup)
    (hadded : objectClauses table type base path mutations = .ok added)
    (hfield : field ∈ type.fields) (hpersist : field.persist = true) :
    ∃ part, clausesOf table path base mutations field = .ok part ∧
      added.actionsAt (path ++ [field.wireName]) = part.actions := by
  induction mutations generalizing added with
  | nil =>
    cases hadded
    exact ⟨.none, rfl, rfl⟩
  | cons entry rest ih =>
    obtain ⟨name, mutation⟩ := entry
    obtain ⟨hfresh, hnames⟩ := List.nodup_cons.mp hnames
    unfold objectClauses at hadded
    obtain ⟨declared, hdeclared, hadded⟩ := bind_eq_ok_iff.mp hadded
    obtain ⟨others, hothers, hadded⟩ := bind_eq_ok_iff.mp hadded
    obtain ⟨part, hpart, hat⟩ := ih hnames hothers
    obtain ⟨hmem, hname⟩ := (TypeSchema.field?_eq_some_iff hfields.names).mp
      (TypeSchema.requireField_eq_ok_iff.mp hdeclared)
    unfold clausesOf at hpart ⊢
    rw [Entries.find?_cons]
    by_cases hsame : name = field.name
    · have hfound := hdeclared
      rw [TypeSchema.requireField_eq_ok_iff, hsame] at hfound
      have hself := (TypeSchema.field?_eq_some_iff hfields.names).mpr ⟨hfield, rfl⟩
      cases hself.symm.trans hfound
      -- What is pending for the field is not pending again for it.
      have hnone : Entries.find? rest field.name = none := by
        by_contra hsome
        exact hfresh (hsame ▸ Entries.mem_names_iff.mpr hsome)
      rw [hnone] at hpart
      cases hpart
      rw [if_pos hsame]
      split at hadded
      · rename_i hwritten
        obtain ⟨first, hfirst, rfl⟩ := map_eq_ok_iff.mp hadded
        rw [Bool.and_eq_true, Bool.not_eq_true'] at hwritten
        refine ⟨first, ?_, ?_⟩
        · simp only [hwritten.2]
          rw [hsame] at hfirst
          exact hfirst
        · rw [actionsAt_append_left hat, actionsAt_of_editsBelow (editsBelow_clauses mutation hfirst)]
      · rename_i hkept
        cases hadded
        rw [hpersist, Bool.true_and, Bool.not_eq_true', Bool.not_eq_false] at hkept
        exact ⟨.none, if_pos hkept, hat⟩
    · rw [if_neg hsame]
      refine ⟨part, hpart, ?_⟩
      split at hadded
      · rename_i hwritten
        obtain ⟨first, hfirst, rfl⟩ := map_eq_ok_iff.mp hadded
        have hwire : declared.wireName ≠ field.wireName := hfields.wireName_ne hmem hfield
          (Bool.and_eq_true_iff.mp hwritten).1 hpersist (hname ▸ hsame)
        rw [actionsAt_append_right
          (actionsAt_of_other (editsBelow_clauses mutation hfirst) hwire), hat]
      · cases hadded
        exact hat

theorem path_ne_of_mem (hadded : objectClauses table type base path mutations = .ok added) :
    ∀ action ∈ added.actions, action.path ≠ path := by
  intro action hmem
  obtain ⟨field, _, _, _, hextends⟩ := below_objectClauses hadded hmem
  exact path_ne_of_below hextends

/-- Of the attribute of each field is left what its change leaves, and other attributes stay. -/
theorem leaves_fields (hfields : FieldsDistinct counters type.fields)
    (hnames : (Entries.names mutations).Nodup)
    (hadded : objectClauses table type base path mutations = .ok added)
    (hleaves : added.Leaves path (some (.map entries)) after) :
    ∃ later, after = some (.map later) ∧
      (∀ field ∈ type.fields, field.persist = true →
        LeavesField table path base mutations field (Item.get? entries field.wireName)
          (Item.get? later field.wireName)) ∧
      ∀ name, (∀ field ∈ type.fields, field.persist = true → field.wireName ≠ name) →
        Item.get? later name = Item.get? entries name := by
  obtain ⟨later, hafter, _, hparts⟩ := hleaves.through (path_ne_of_mem hadded)
  refine ⟨later, hafter, fun field hfield hpersist => ?_, fun name hother => ?_⟩
  · obtain ⟨part, hpart, hat⟩ := actionsAt_objectClauses hfields hnames hadded hfield hpersist
    exact ⟨part, hpart, hparts _ part hat⟩
  · refine (leaves_of_nil rfl).mp (hparts name .none ?_)
    refine actionsAt_eq_nil_iff.mpr fun action hmem hextends => ?_
    obtain ⟨field, hfield, _, hpersist, hat⟩ := below_objectClauses hadded hmem
    exact hother field hfield hpersist (Expression.Clauses.eq_of_below hat hextends)

/-! ### Values written whole -/

/-- The change is written as a value, whatever is stored. -/
def WritesWhole (field : FieldSchema) (base : Value) : FieldMutation → Prop
  | .scalar delta => field.writesRelative = false ∨ delta.amount = none
  | .collection _ => field.writesRelative = false
  | .object .. => base.isNull = true

/-- A change that is written as a value leaves stored the value that the view shows. -/
theorem stores_latest {mutation : FieldMutation} {base : Value}
    (hwhole : mutation.WritesWhole field base) (hchanges : mutation.isEmpty = false)
    (hfield : field.Storable) (hpart : mutation.clauses table field path base = .ok part)
    (hleaves : part.Leaves path before after) :
    ∃ latest, mutation.latest table field base = .ok latest ∧ field.Stores table latest after := by
  obtain ⟨element, helement⟩ := hfield.element
  have hrequire := ValueType.requireElement_eq_ok_iff.mpr helement
  cases mutation with
  | scalar delta =>
    obtain ⟨set, amount, remove⟩ := delta
    unfold clauses at hpart
    unfold latest
    rw [hrequire, ok_bind]
    cases remove with
    | true =>
      cases hpart
      rw [leaves_single (show _ = [Change.clear.action path] from rfl)] at hleaves
      exact ⟨.null, rfl, (Except.ok.inj hleaves).symm⟩
    | false =>
      rw [if_neg Bool.false_ne_true] at hpart
      cases set with
      | some value => exact ⟨value, rfl, (leaves_fieldClauses hpart).mp hleaves⟩
      | none =>
        cases amount with
        | none => cases hchanges
        | some amount =>
          have hrelative : field.writesRelative = false :=
            hwhole.resolve_right (Option.some_ne_none amount)
          dsimp only at hpart
          rw [hrequire, ok_bind, hrelative, if_neg Bool.false_ne_true] at hpart
          obtain ⟨latest, hlatest, hpart⟩ := bind_eq_ok_iff.mp hpart
          exact ⟨latest, hlatest, (leaves_fieldClauses hpart).mp hleaves⟩
  | collection delta =>
    unfold clauses at hpart
    unfold latest
    rw [show field.writesRelative = false from hwhole, if_neg Bool.false_ne_true, hrequire,
      ok_bind] at hpart
    obtain ⟨latest, hlatest, hpart⟩ := bind_eq_ok_iff.mp hpart
    rw [hrequire, ok_bind]
    exact ⟨latest, hlatest, (leaves_fieldClauses hpart).mp hleaves⟩
  | object nested mutations =>
    unfold clauses at hpart
    unfold latest
    obtain ⟨type, htype, hpart⟩ := bind_eq_ok_iff.mp hpart
    rw [show base.isNull = true from hwhole, if_pos rfl] at hpart
    obtain ⟨record, hrecord, hpart⟩ := bind_eq_ok_iff.mp hpart
    rw [htype, ok_bind, hrecord, ok_bind]
    exact ⟨record.toValue, rfl, (leaves_fieldClauses hpart).mp hleaves⟩

theorem LeavesField.kept {held stored : Option Attribute}
    (hleaves : LeavesField table path base mutations field held stored)
    (hnone : Entries.find? mutations field.name = none) : stored = held := by
  obtain ⟨part, hpart, hleaves⟩ := hleaves
  rw [clausesOf, hnone] at hpart
  cases hpart
  exact (leaves_of_nil rfl).mp hleaves

end FieldMutation

/-! ### Updates of items -/

namespace Update

variable {description : TableDescription} {base : Record} {update later : Update}
  {changes : List FieldChange} {compiled : Expression.Compiled} {expression : String}
  {actions : List Action} {item stored : Item}

/-- An update writes each field by what is pending for the field. Beside the fields it changes the
revision at most. -/
theorem leaves_compile (hresolve : description.resolve = .ok table)
    (hstart : start table base = .ok update) (hchanges : update.changeAll table changes = .ok later)
    (hcompile : later.compile table = .ok compiled) (hupdate : compiled.update = some expression)
    (hparse : Action.parse compiled.bindings expression = .ok actions)
    (happly : applyActions item actions = .ok stored) :
    (∀ field ∈ table.root.fields, field.persist = true →
      FieldMutation.LeavesField table [] base later.object.mutations field
        (Item.get? item field.wireName) (Item.get? stored field.wireName)) ∧
    ∀ name, (∀ field ∈ table.root.fields, field.persist = true → field.wireName ≠ name) →
      name ≠ table.revisionAttribute → Item.get? stored name = Item.get? item name := by
  have haccepted := TableDescription.accepted_of_resolve hresolve
  have hfields := haccepted.fields table.root (List.mem_of_find?_eq_some haccepted.root_eq)
  obtain ⟨user, added, hread, huser, hadded, htidy, _⟩ :=
    parse_compile hresolve hstart hchanges hcompile hupdate
  cases hread.symm.trans hparse
  have hnames := FieldMutation.Distinct.names htidy.distinct
  have hrevision : added.EditsBelow [table.revisionAttribute] := by
    rcases hadded with hnone | ⟨value, hsingle⟩
    · rw [Clauses.EditsBelow, hnone]
      exact List.forall_mem_nil _
    · exact @editsBelow_single _ _ (.assign value) hsingle
  have huserEdits : ∀ action ∈ user.actions, ∃ name, ∃ edit : Edit,
      (edit.under [name]).action = action := by
    intro action hmem
    obtain ⟨field, _, _, edit, hedit⟩ := FieldMutation.editsBelow_objectClauses _ huser action hmem
    exact ⟨field.wireName, edit, hedit⟩
  have hedits : (user ++ added).EditsBelow [] := by
    refine Clauses.EditsBelow.append ?_ (@Clauses.EditsBelow.of_higher [] _ _ hrevision)
    intro action hmem
    obtain ⟨name, edit, rfl⟩ := huserEdits action hmem
    exact ⟨edit.under [name], by rw [Edit.under_under]; rfl⟩
  have hstrict : ∀ action ∈ (user ++ added).actions, action.path ≠ [] := by
    intro action hmem
    rcases mem_actions_append.mp hmem with hmem | hmem
    · obtain ⟨name, edit, rfl⟩ := huserEdits action hmem
      rw [Edit.path_action]
      exact List.cons_ne_nil _ _
    · exact @path_ne_of_below [] _ _ (hrevision.below action hmem)
  obtain ⟨left, hleft, _, hparts⟩ := (leaves_of_applyActions hedits hstrict happly).through hstrict
  cases hleft
  have hcounters (name : String) (hname : name ≠ table.revisionAttribute) :
      added.actionsAt ([] ++ [name]) = [] :=
    actionsAt_of_other hrevision hname.symm
  constructor
  · intro field hfield hpersist
    obtain ⟨part, hpart, hat⟩ := FieldMutation.actionsAt_objectClauses hfields hnames huser hfield
      hpersist
    refine ⟨part, hpart, hparts _ part ?_⟩
    rw [actionsAt_append_left (hcounters _ (hfields.reserved field hfield hpersist).2), hat]
  · intro name hother hname
    refine (leaves_of_nil rfl).mp (hparts name .none ?_)
    rw [actionsAt_append_left (hcounters name hname)]
    refine actionsAt_eq_nil_iff.mpr fun action hmem hextends => ?_
    obtain ⟨field, hfield, _, hpersist, hat⟩ := FieldMutation.below_objectClauses huser hmem
    exact hother field hfield hpersist (Expression.Clauses.eq_of_below hat hextends)

end Update

end RecordStore
