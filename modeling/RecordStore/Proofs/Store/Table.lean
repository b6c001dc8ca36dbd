import RecordStore.Proofs.Item
import RecordStore.Proofs.Outcome
import RecordStore.Store.Call

/-!
# What writes leave

An item is found under its key once it is stored, and calls that write one item under a condition
either change the table that they name or leave every table as it was.
-/

namespace RecordStore

/-! ### Keys of items -/

theorem Item.hasKey_iff {item key : Item} :
    item.hasKey key = true ↔ ∀ name value, (name, value) ∈ key → Item.get? item name = some value := by
  simp [Item.hasKey]

namespace KeyNames

theorem mem_of_mapM {names : List String} {item : Item} {entries : List (String × Attribute)}
    (hall : (names.mapM fun name => (Item.get? item name).map fun value => (name, value)) =
      some entries) :
    ∀ name value, (name, value) ∈ entries → Item.get? item name = some value := by
  induction names generalizing entries with
  | nil =>
    cases hall
    exact fun name value hmem => absurd hmem List.not_mem_nil
  | cons first rest ih =>
    rw [List.mapM_cons] at hall
    obtain ⟨entry, hentry, hall⟩ := Option.bind_eq_some_iff.mp hall
    obtain ⟨others, hothers, hdone⟩ := Option.bind_eq_some_iff.mp hall
    obtain ⟨held, hheld, rfl⟩ := Option.map_eq_some_iff.mp hentry
    cases hdone
    intro name value hmem
    rcases List.mem_cons.mp hmem with hfirst | hmem
    · cases hfirst
      exact hheld
    · exact ih hothers name value hmem

theorem hasKey_of_keyOf? {keys : KeyNames} {item key : Item} (hkey : keys.keyOf? item = some key) :
    item.hasKey key = true := by
  obtain ⟨entries, hentries, hdone⟩ := Option.bind_eq_some_iff.mp hkey
  cases hdone
  rw [Item.hasKey_iff]
  exact fun name value hmem => mem_of_mapM hentries name value (Entries.mem_sorted hmem)

theorem mem_names_of_mapM {names : List String} {item : Item} {entries : List (String × Attribute)}
    (hall : (names.mapM fun name => (Item.get? item name).map fun value => (name, value)) =
      some entries) : ∀ name value, (name, value) ∈ entries → name ∈ names := by
  induction names generalizing entries with
  | nil =>
    cases hall
    exact fun name value hmem => absurd hmem List.not_mem_nil
  | cons first rest ih =>
    rw [List.mapM_cons] at hall
    obtain ⟨entry, hentry, hall⟩ := Option.bind_eq_some_iff.mp hall
    obtain ⟨others, hothers, hdone⟩ := Option.bind_eq_some_iff.mp hall
    obtain ⟨held, _, rfl⟩ := Option.map_eq_some_iff.mp hentry
    cases hdone
    intro name value hmem
    rcases List.mem_cons.mp hmem with hfirst | hmem
    · cases hfirst
      exact List.mem_cons_self
    · exact List.mem_cons_of_mem _ (ih hothers name value hmem)

/-- A key has no attributes but those that make it up. -/
theorem get?_keyOf?_of_not_mem {keys : KeyNames} {item key : Item} {name : String}
    (hkey : keys.keyOf? item = some key) (hname : name ∉ keys.attributes) :
    Item.get? key name = none := by
  obtain ⟨entries, hentries, hdone⟩ := Option.bind_eq_some_iff.mp hkey
  cases hdone
  cases hget : Item.get? (Item.ofEntries entries) name with
  | none => rfl
  | some value =>
    have hmem := Entries.mem_sorted (Entries.mem_of_find? hget)
    exact absurd (mem_names_of_mapM hentries name value hmem) hname

theorem mem_entries_of_mapM {names : List String} {item : Item}
    {entries : List (String × Attribute)}
    (hall : (names.mapM fun name => (Item.get? item name).map fun value => (name, value)) =
      some entries) : ∀ name ∈ names, ∃ value, (name, value) ∈ entries := by
  induction names generalizing entries with
  | nil => exact fun name hmem => absurd hmem List.not_mem_nil
  | cons first rest ih =>
    rw [List.mapM_cons] at hall
    obtain ⟨entry, hentry, hall⟩ := Option.bind_eq_some_iff.mp hall
    obtain ⟨others, hothers, hdone⟩ := Option.bind_eq_some_iff.mp hall
    obtain ⟨held, _, rfl⟩ := Option.map_eq_some_iff.mp hentry
    cases hdone
    intro name hmem
    rcases List.mem_cons.mp hmem with rfl | hmem
    · exact ⟨held, List.mem_cons_self⟩
    · obtain ⟨value, hvalue⟩ := ih hothers name hmem
      exact ⟨value, List.mem_cons_of_mem _ hvalue⟩

theorem exists_keyOf? {keys : KeyNames} {item : Item}
    (hall : ∀ name ∈ keys.attributes, ∃ value, Item.get? item name = some value) :
    ∃ key, keys.keyOf? item = some key := by
  have hmapM : ∀ names : List String, (∀ name ∈ names, name ∈ keys.attributes) →
      ∃ entries, (names.mapM fun name => (Item.get? item name).map fun value => (name, value)) =
        some entries := by
    intro names hnames
    induction names with
    | nil => exact ⟨[], rfl⟩
    | cons name rest ih =>
      obtain ⟨value, hvalue⟩ := hall name (hnames name List.mem_cons_self)
      obtain ⟨entries, hentries⟩ := ih fun other hmem => hnames other (List.mem_cons_of_mem _ hmem)
      refine ⟨(name, value) :: entries, ?_⟩
      rw [List.mapM_cons, hvalue, hentries]
      rfl
  obtain ⟨entries, hentries⟩ := hmapM keys.attributes fun _ hmem => hmem
  refine ⟨Item.ofEntries entries, ?_⟩
  rw [keyOf?, hentries]
  rfl

/-- Items with the same key attributes have the same key. -/
theorem keyOf?_congr {keys : KeyNames} {first second : Item}
    (hsame : ∀ name ∈ keys.attributes, Item.get? first name = Item.get? second name) :
    keys.keyOf? first = keys.keyOf? second := by
  have hmapM : ∀ names : List String, (∀ name ∈ names, name ∈ keys.attributes) →
      (names.mapM fun name => (Item.get? first name).map fun value => (name, value)) =
        names.mapM fun name => (Item.get? second name).map fun value => (name, value) := by
    intro names hnames
    induction names with
    | nil => rfl
    | cons name rest ih =>
      rw [List.mapM_cons, List.mapM_cons, hsame name (hnames name List.mem_cons_self),
        ih fun other hmem => hnames other (List.mem_cons_of_mem _ hmem)]
  unfold keyOf?
  rw [hmapM _ fun _ hmem => hmem]

/-- Items with the same key have the same key attributes. -/
theorem get?_eq_of_keyOf? {keys : KeyNames} {first second key : Item}
    (hfirst : keys.keyOf? first = some key) (hsecond : keys.keyOf? second = some key) :
    ∀ name ∈ keys.attributes, Item.get? first name = Item.get? second name := by
  intro name hname
  obtain ⟨entries, hentries, hdone⟩ := Option.bind_eq_some_iff.mp hfirst
  obtain ⟨value, hvalue⟩ := mem_entries_of_mapM hentries name hname
  obtain ⟨held, hheld⟩ := Entries.exists_find?_sorted hvalue
  have hmem : (name, held) ∈ key := by
    cases hdone
    exact Entries.mem_of_find? hheld
  rw [Item.hasKey_iff.mp (hasKey_of_keyOf? hfirst) name held hmem,
    Item.hasKey_iff.mp (hasKey_of_keyOf? hsecond) name held hmem]

/-- An item that holds a whole key has that key. -/
theorem keyOf?_of_hasKey {keys : KeyNames} {item key : Item} (hwhole : keys.keyOf? key = some key)
    (hheld : item.hasKey key = true) : keys.keyOf? item = some key := by
  rw [← hwhole]
  apply keyOf?_congr
  intro name hname
  obtain ⟨entries, hentries, _⟩ := Option.bind_eq_some_iff.mp hwhole
  obtain ⟨value, hvalue⟩ := mem_entries_of_mapM hentries name hname
  have hget := mem_of_mapM hentries name value hvalue
  rw [hget]
  exact Item.hasKey_iff.mp hheld name value (Entries.mem_of_find? hget)

end KeyNames

/-! ### Items of tables -/

namespace StoredTable

variable {table : StoredTable} {key item : Item}

/-- A whole key is taken as it is. -/
theorem exactKey_of_keyOf? (hkey : table.keys.keyOf? key = some key) :
    table.exactKey key = .ok key := by
  rw [exactKey, hkey]
  exact if_pos rfl

theorem mem_of_find? (hfind : table.find? key = some item) : item ∈ table.items :=
  List.mem_of_find?_eq_some hfind

theorem mem_replace {items : List Item} {held : Item} (hmem : held ∈ replace key item items) :
    held = item ∨ held ∈ items := by
  induction items with
  | nil => exact .inl (List.mem_singleton.mp hmem)
  | cons first rest ih =>
    unfold replace at hmem
    split at hmem
    · exact (List.mem_cons.mp hmem).imp id (List.mem_cons_of_mem _)
    · rcases List.mem_cons.mp hmem with rfl | hmem
      · exact .inr List.mem_cons_self
      · exact (ih hmem).imp id (List.mem_cons_of_mem _)

theorem find?_store (table : StoredTable) (hkey : item.hasKey key = true) :
    (table.store key item).find? key = some item := by
  change (replace key item table.items).find? _ = some item
  induction table.items with
  | nil => simp [replace, hkey]
  | cons first rest ih =>
    unfold replace
    split
    · simp [hkey]
    · rename_i hother
      rw [List.find?_cons, (Bool.not_eq_true _).mp hother]
      exact ih

/-- A put stores the item where its condition holds. -/
theorem put_of_meets {condition : Option String} {bindings : Expression.Bindings} {accepted : Bool}
    (hkey : table.keys.keyOf? item = some key)
    (hmeets : Expression.meets ((table.find? key).getD []) condition bindings = .ok accepted) :
    table.put item condition bindings =
      .ok (if accepted then .applied (table.store key item, table.find? key) else .rejected) := by
  unfold put
  rw [hkey]
  dsimp only
  rw [hmeets]
  cases accepted <;> rfl

/-- An update that is made was made where its condition holds, and keeps the key. -/
theorem exists_update_applied {expression : String} {condition : Option String}
    {bindings : Expression.Bindings} {later : StoredTable} {updated : Updated}
    (hupdate : table.update key expression condition bindings = .ok (.applied (later, updated))) :
    ∃ exact, table.exactKey key = .ok exact ∧
      Expression.meets ((table.find? exact).getD []) condition bindings = .ok true ∧
      Expression.applyUpdate ((table.find? exact).getD exact) expression bindings =
        .ok updated.new ∧
      table.keys.keyOf? updated.new = some exact ∧ later = table.store exact updated.new := by
  obtain ⟨exact, hexact, hupdate⟩ := bind_eq_ok_iff.mp hupdate
  obtain ⟨accepted, hmeets, hupdate⟩ := bind_eq_ok_iff.mp hupdate
  cases accepted with
  | false => cases hupdate
  | true =>
    obtain ⟨made, hmade, hupdate⟩ := bind_eq_ok_iff.mp hupdate
    by_cases hmoved : table.keys.keyOf? made ≠ some exact
    · rw [if_pos hmoved] at hupdate
      cases hupdate
    · rw [if_neg hmoved] at hupdate
      cases hupdate
      exact ⟨exact, hexact, hmeets, hmade, not_not.mp hmoved, rfl⟩

theorem update_applied {expression : String} {condition : Option String}
    {bindings : Expression.Bindings} {later : StoredTable} {updated : Updated}
    (hkey : table.exactKey key = .ok key)
    (hupdate : table.update key expression condition bindings = .ok (.applied (later, updated))) :
    Expression.meets ((table.find? key).getD []) condition bindings = .ok true ∧
      Expression.applyUpdate ((table.find? key).getD key) expression bindings = .ok updated.new ∧
      table.keys.keyOf? updated.new = some key ∧ later = table.store key updated.new := by
  obtain ⟨exact, hexact, hmade⟩ := exists_update_applied hupdate
  cases hkey.symm.trans hexact
  exact hmade

/-- Storing an item changes nothing under any other key. -/
theorem find?_store_of_ne {keys : KeyNames} {other : Item} (table : StoredTable)
    (hitem : keys.keyOf? item = some key) (hkey : keys.keyOf? key = some key)
    (hother : keys.keyOf? other = some other) (hne : other ≠ key) :
    (table.store key item).find? other = table.find? other := by
  -- An item has at most one whole key.
  have hdiffers : ∀ held : Item, keys.keyOf? held = some key → held.hasKey other = false := by
    intro held hheld
    rw [← Bool.not_eq_true]
    intro hhas
    rw [KeyNames.keyOf?_of_hasKey hother hhas] at hheld
    exact hne (Option.some.inj hheld)
  change (replace key item table.items).find? _ = table.items.find? _
  induction table.items with
  | nil => simp [replace, hdiffers item hitem]
  | cons first rest ih =>
    unfold replace
    by_cases hfirst : first.hasKey key = true
    · have hheld := hdiffers first (KeyNames.keyOf?_of_hasKey hkey hfirst)
      rw [if_pos hfirst, List.find?_cons, List.find?_cons, hdiffers item hitem, hheld]
    · rw [if_neg hfirst, List.find?_cons, List.find?_cons, ih]

end StoredTable

/-! ### Conditional calls -/

namespace Store

/-- The store once it has recorded a call. -/
def recorded (store : Store) (operation : Operation) (table : String) : Store :=
  { store with calls := store.calls ++ [⟨operation, table, 1⟩] }

@[simp] theorem table?_recorded (store : Store) (operation : Operation) (table name : String) :
    (store.recorded operation table).table? name = store.table? name := rfl

@[simp] theorem tables_recorded (store : Store) (operation : Operation) (table : String) :
    (store.recorded operation table).tables = store.tables := rfl

theorem table?_setTable (store : Store) (name : String) (table : StoredTable) :
    (store.setTable name table).table? name = some table := by
  unfold setTable table?
  rw [Entries.find?_put, if_pos rfl]

theorem table?_congr {store earlier : Store} (hsame : store.tables = earlier.tables) (name : String) :
    store.table? name = earlier.table? name := by
  rw [table?, hsame, table?]

theorem table?_setTable_of_ne (store : Store) {name other : String} (table : StoredTable)
    (hne : other ≠ name) : (store.setTable name table).table? other = store.table? other := by
  unfold setTable table?
  rw [Entries.find?_put, if_neg hne.symm]

/-- The store keeps a table under the keys of its schema. -/
structure Holds (store : Store) (table : TableSchema) (stored : StoredTable) : Prop where
  table?_eq : store.table? table.name = some stored
  keys_eq : stored.keys = .ofSchema table.keys

section Holds

variable {store later : Store} {table : TableSchema} {stored left : StoredTable}

theorem Holds.of_tables_eq (hholds : store.Holds table stored)
    (htables : later.tables = store.tables) : later.Holds table stored := by
  exact ⟨(table?_congr htables table.name).trans hholds.table?_eq, hholds.keys_eq⟩

theorem Holds.of_setTable (hholds : store.Holds table stored)
    (htables : later.tables = (store.setTable table.name left).tables)
    (hkeys : left.keys = stored.keys) : later.Holds table left := by
  refine ⟨?_, hkeys.trans hholds.keys_eq⟩
  rw [table?, htables]
  exact table?_setTable _ _ _

end Holds

theorem item?_eq {store : Store} {name : String} {key : Item} {table : StoredTable}
    (htable : store.table? name = some table) : store.item? name key = table.find? key := by
  rw [item?, htable]
  rfl

theorem run_requireTable {store : Store} {name : String} {table : StoredTable}
    (context : RequestContext) (htable : store.table? name = some table) :
    (requireTable name context).run.run store = (.ok table, store) := by
  have hget : (MonadState.get : StoreCall Store).run.run store = (.ok store, store) := rfl
  rw [requireTable, run_bind_of_ok hget, htable]
  rfl

theorem run_checked {α : Type} (context : RequestContext) (result : Except Expression.Fault α)
    (store : Store) : (checked context result).run.run store =
      (result.mapError fun fault => .invalidRequest fault context, store) := by
  cases result <;> rfl

theorem run_requireTable_of_missing {store : Store} {name : String} (context : RequestContext)
    (hmissing : store.table? name = none) :
    (requireTable name context).run.run store = (.error (.missingTable name context), store) := by
  have hget : (MonadState.get : StoreCall Store).run.run store = (.ok store, store) := rfl
  rw [requireTable, run_bind_of_ok hget, hmissing]
  rfl

theorem run_write_of_missing {α : Type} {store : Store} {name : String} (context : RequestContext)
    (hmissing : store.table? name = none)
    (step : StoredTable → Except Expression.Fault (Outcome (StoredTable × α))) :
    (write name context step).run.run store = (.error (.missingTable name context), store) := by
  rw [write, run_bind_of_error (run_requireTable_of_missing context hmissing)]

theorem run_write {α : Type} {store : Store} {name : String} {table : StoredTable}
    (context : RequestContext) (htable : store.table? name = some table)
    (step : StoredTable → Except Expression.Fault (Outcome (StoredTable × α))) :
    (write name context step).run.run store =
      match step table with
      | .ok (.applied (later, result)) => (.ok (.applied result), store.setTable name later)
      | .ok .rejected => (.ok .rejected, store)
      | .error fault => (.error (.invalidRequest fault context), store) := by
  rw [write, run_bind_of_ok (run_requireTable context htable)]
  cases step table with
  | error fault => rfl
  | ok outcome => cases outcome <;> rfl

theorem run_write_of_applied {α : Type} {store : Store} {name : String} {table later : StoredTable}
    {result : α} {step : StoredTable → Except Expression.Fault (Outcome (StoredTable × α))}
    (context : RequestContext) (htable : store.table? name = some table)
    (hstep : step table = .ok (.applied (later, result))) :
    (write name context step).run.run store = (.ok (.applied result), store.setTable name later) := by
  rw [run_write context htable, hstep]

/-- A call that is recorded, writes to a table under a condition and answers what it found. -/
def conditionalCall {α : Type} (operation : Operation) (name : String) (context : RequestContext)
    (step : StoredTable → Except Expression.Fault (Outcome (StoredTable × α)))
    (answer : α → ItemAnswer) : StoreCall ItemAnswer := do
  record operation name 1
  match ← write name context step with
  | .applied result => return answer result
  | .rejected => throw (.writeConflict context)

section ConditionalCall

variable {α : Type} {operation : Operation} {name : String} {context : RequestContext}
  {step : StoredTable → Except Expression.Fault (Outcome (StoredTable × α))}
  {answer : α → ItemAnswer} {store : Store} {table : StoredTable}

/-- What a conditional call makes of the table that it finds. -/
theorem run_conditionalCall (htable : store.table? name = some table) :
    (conditionalCall operation name context step answer).run.run store =
      match step table with
      | .ok (.applied (later, result)) =>
        (.ok (answer result), (store.recorded operation name).setTable name later)
      | .ok .rejected => (.error (.writeConflict context), store.recorded operation name)
      | .error fault => (.error (.invalidRequest fault context), store.recorded operation name) := by
  have hrecord : (record operation name 1).run.run store = (.ok (), store.recorded operation name) :=
    rfl
  have hwrite := run_write context ((table?_recorded store operation name name).trans htable) step
  rw [conditionalCall, run_bind_of_ok hrecord]
  cases hstep : step table with
  | error fault =>
    rw [hstep] at hwrite
    rw [run_bind_of_error hwrite]
  | ok outcome =>
    rw [hstep] at hwrite
    cases outcome with
    | applied result =>
      rw [run_bind_of_ok hwrite]
      rfl
    | rejected =>
      rw [run_bind_of_ok hwrite]
      rfl

theorem run_conditionalCall_of_missing (htable : store.table? name = none) :
    (conditionalCall operation name context step answer).run.run store =
      (.error (.missingTable name context), store.recorded operation name) := by
  have hrecord : (record operation name 1).run.run store = (.ok (), store.recorded operation name) :=
    rfl
  have hwrite := run_write_of_missing context
    ((table?_recorded store operation name name).trans htable) step
  rw [conditionalCall, run_bind_of_ok hrecord, run_bind_of_error hwrite]

end ConditionalCall

/-- A call that finishes as a conditional one does is a conditional one. -/
theorem eq_conditionalCall {α : Type} {operation : Operation} {name : String}
    {context : RequestContext}
    {step : StoredTable → Except Expression.Fault (Outcome (StoredTable × α))}
    {answer : α → ItemAnswer} {finish : Outcome α → StoreCall ItemAnswer}
    (happlied : ∀ result, finish (.applied result) = pure (answer result))
    (hrejected : finish .rejected = throw (.writeConflict context)) :
    (do
      record operation name 1
      finish (← write name context step)) = conditionalCall operation name context step answer := by
  have hfinish : finish = fun outcome => match outcome with
      | .applied result => pure (answer result)
      | .rejected => throw (.writeConflict context) := by
    funext outcome
    cases outcome with
    | applied result => exact happlied result
    | rejected => exact hrejected
  rw [hfinish, conditionalCall]

theorem putItem_eq (request : PutRequest) :
    putItem request = conditionalCall .putItem request.table
      (writeContext request.table none none request.guard)
      (fun table => table.put request.item request.guard.condition request.guard.bindings)
      fun old => ⟨request.options.returned.select old none,
        capacity request.options.reportsCapacity request.table 1⟩ :=
  eq_conditionalCall (fun _ => rfl) rfl

theorem updateItem_eq {request : UpdateRequest} {expression : String}
    (hexpression : request.update = some expression) :
    updateItem request = conditionalCall .updateItem request.table
      (writeContext request.table request.key request.update request.guard)
      (fun table => table.update (request.key.getD []) expression request.guard.condition
        request.guard.bindings)
      fun updated => ⟨request.options.returned.select updated.old (some updated.new),
        capacity request.options.reportsCapacity request.table 1⟩ := by
  unfold updateItem
  rw [hexpression]
  exact eq_conditionalCall (fun _ => rfl) rfl

theorem deleteItem_eq (request : DeleteRequest) :
    deleteItem request = conditionalCall .deleteItem request.table
      (writeContext request.table request.key none request.guard)
      (fun table => table.delete (request.key.getD []) request.guard.condition
        request.guard.bindings)
      fun old => ⟨request.options.returned.select old none,
        capacity request.options.reportsCapacity request.table 1⟩ :=
  eq_conditionalCall (fun _ => rfl) rfl

end Store

end RecordStore
