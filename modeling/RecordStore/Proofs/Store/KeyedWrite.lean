import RecordStore.Proofs.Store.Contents
import RecordStore.Store.Transaction

/-!
# Writes under one key

Puts, updates, deletes and checks all look at one key of a table. Where the condition holds of the
item that the key is bound to, they bind the key to another item, or to none; otherwise, and where
an expression cannot be evaluated, they change nothing.
-/

namespace RecordStore

open Expression (Fault Bindings meets applyUpdate)

/-! ### Bindings -/

namespace StoredTable

variable {table : StoredTable} {key item : Item} {left : Option Item}

/-- The table with an item under a key, or with none there. -/
def bind (table : StoredTable) (key : Item) : Option Item → StoredTable
  | some item => table.store key item
  | none => table.erase key

@[simp] theorem keys_bind (table : StoredTable) (key : Item) (left : Option Item) :
    (table.bind key left).keys = table.keys := by
  cases left <;> rfl

/-- A table of which one key is bound to another item, or to none. -/
def Rebinds (table later : StoredTable) : Prop :=
  ∃ key left, (∀ item, left = some item → table.keys.keyOf? item = some key) ∧
    later = table.bind key left

/-- Leaving what is found leaves the table. -/
theorem bind_contents (hwhole : table.keys.keyOf? key = some key) :
    table.bind key (table.contents key) = table := by
  rw [← find?_eq_contents hwhole]
  cases hfound : table.find? key with
  | none =>
    have hnone : ∀ item ∈ table.items, ¬item.hasKey key = true := List.find?_eq_none.mp hfound
    change { table with items := table.items.eraseP _ } = table
    rw [List.eraseP_of_forall_not hnone]
  | some item =>
    have hsame : replace key item table.items = table.items := by
      unfold find? at hfound
      generalize table.items = items at hfound
      induction items with
      | nil => cases hfound
      | cons first rest ih =>
        unfold replace
        by_cases hheld : first.hasKey key = true
        · rw [List.find?_cons_of_pos (p := fun item => Item.hasKey item key) hheld] at hfound
          rw [if_pos hheld, Option.some.inj hfound]
        · rw [List.find?_cons_of_neg (p := fun item => Item.hasKey item key) hheld] at hfound
          rw [if_neg hheld, ih hfound]
    change { table with items := replace key item table.items } = table
    rw [hsame]

theorem Keyed.bind (hkeyed : table.Keyed)
    (hleft : ∀ item, left = some item → table.keys.keyOf? item = some key) :
    (table.bind key left).Keyed := by
  cases left with
  | none => exact hkeyed.erase key
  | some item => exact hkeyed.store (hleft item rfl)

theorem Keyed.rebinds {later : StoredTable} (hkeyed : table.Keyed)
    (hrebinds : table.Rebinds later) : later.Keyed := by
  obtain ⟨key, left, hleft, rfl⟩ := hrebinds
  exact hkeyed.bind hleft

theorem mem_bind (hmem : item ∈ (table.bind key left).items) :
    left = some item ∨ item ∈ table.items := by
  cases left with
  | none => exact .inr (List.mem_of_mem_eraseP hmem)
  | some other => exact (mem_replace hmem).imp (fun hsame => congrArg some hsame.symm) id

theorem Rebinds.keys_eq {later : StoredTable} (hrebinds : table.Rebinds later) :
    later.keys = table.keys := by
  obtain ⟨key, left, _, rfl⟩ := hrebinds
  exact keys_bind table key left

theorem Keyed.contents_bind (hkeyed : table.Keyed) (hwhole : table.keys.keyOf? key = some key)
    (hleft : ∀ item, left = some item → table.keys.keyOf? item = some key) :
    (table.bind key left).contents = Function.update table.contents key left := by
  cases left with
  | none => exact hkeyed.contents_erase hwhole
  | some item => exact contents_store (hleft item rfl)

end StoredTable

/-! ### Writes -/

/-- A write to the item under one key of a table, made where its condition holds. -/
structure KeyedWrite where
  table : String
  context : RequestContext
  condition : Option String
  bindings : Bindings
  /-- The key that is written. -/
  key : StoredTable → Except Fault Item
  /-- What is left under the key, given what is found there. -/
  change : StoredTable → Item → Option Item → Except Fault (Option Item)
  key_whole : ∀ {held : StoredTable} {exact : Item}, key held = .ok exact →
    held.keys.keyOf? exact = some exact
  change_keeps : ∀ {held : StoredTable} {exact : Item} {found : Option Item} {item : Item},
    key held = .ok exact → (∀ old, found = some old → held.keys.keyOf? old = some exact) →
    change held exact found = .ok (some item) → held.keys.keyOf? item = some exact

/-- What a write found under its key and what it left there. -/
structure Rebinding where
  found : Option Item
  left : Option Item

namespace KeyedWrite

variable {write : KeyedWrite} {table later : StoredTable} {key : Item}

def step (write : KeyedWrite) (table : StoredTable) :
    Except Fault (Outcome (StoredTable × Rebinding)) := do
  let key ← write.key table
  let found := table.find? key
  if ← meets (found.getD []) write.condition write.bindings then
    let left ← write.change table key found
    return .applied (table.bind key left, ⟨found, left⟩)
  else return .rejected

/-- The write is made under a key, where it finds one item and leaves another. -/
structure Binds (write : KeyedWrite) (table : StoredTable) (key : Item) (left : Option Item) :
    Prop where
  key_eq : write.key table = .ok key
  allowed : meets ((table.contents key).getD []) write.condition write.bindings = .ok true
  change_eq : write.change table key (table.contents key) = .ok left

/-- The condition of the write does not hold of what is found. -/
structure Denied (write : KeyedWrite) (table : StoredTable) : Prop where
  denied : ∃ key, write.key table = .ok key ∧
    meets ((table.contents key).getD []) write.condition write.bindings = .ok false

/-- The key of the write, its condition or its change cannot be evaluated. -/
inductive Faults (write : KeyedWrite) (table : StoredTable) : Fault → Prop where
  | key {fault : Fault} (hkey : write.key table = .error fault) : Faults write table fault
  | condition {key : Item} {fault : Fault} (hkey : write.key table = .ok key)
    (hmeets : meets ((table.contents key).getD []) write.condition write.bindings = .error fault) :
    Faults write table fault
  | change {key : Item} {fault : Fault} (hkey : write.key table = .ok key)
    (hmeets : meets ((table.contents key).getD []) write.condition write.bindings = .ok true)
    (hchange : write.change table key (table.contents key) = .error fault) :
    Faults write table fault

/-- The item that is left has the key under which it is left. -/
theorem Binds.keyOf?_left {left : Option Item} (hbinds : write.Binds table key left) :
    ∀ item, left = some item → table.keys.keyOf? item = some key := by
  rintro item rfl
  exact write.change_keeps hbinds.key_eq (fun _ => StoredTable.keyOf?_of_contents) hbinds.change_eq

/-- The ways in which a write goes, each of which is decided by what the table binds. -/
inductive Goes (write : KeyedWrite) (table : StoredTable) :
    Except Fault (Outcome (StoredTable × Rebinding)) → Prop where
  | applied {key : Item} {left : Option Item} (hbinds : write.Binds table key left) :
    Goes write table (.ok (.applied (table.bind key left, ⟨table.contents key, left⟩)))
  | rejected (hdenied : write.Denied table) : Goes write table (.ok .rejected)
  | refused {fault : Fault} (hfaults : write.Faults table fault) : Goes write table (.error fault)

theorem goes_step (write : KeyedWrite) (table : StoredTable) : write.Goes table (write.step table) := by
  unfold step
  cases hkey : write.key table with
  | error fault => exact .refused (.key hkey)
  | ok key =>
    rw [ok_bind]
    dsimp only
    rw [StoredTable.find?_eq_contents (write.key_whole hkey)]
    cases hmeets : meets ((table.contents key).getD []) write.condition write.bindings with
    | error fault => exact .refused (.condition hkey hmeets)
    | ok accepted =>
      rw [ok_bind]
      cases accepted with
      | false => exact .rejected ⟨key, hkey, hmeets⟩
      | true =>
        rw [if_pos rfl]
        cases hchange : write.change table key (table.contents key) with
        | error fault => exact .refused (.change hkey hmeets hchange)
        | ok left => exact .applied ⟨hkey, hmeets, hchange⟩

/-- A write that is applied binds or unbinds one key. -/
theorem rebinds_of_step {rebinding : Rebinding}
    (hstep : write.step table = .ok (.applied (later, rebinding))) : table.Rebinds later := by
  have hgoes := write.goes_step table
  rw [hstep] at hgoes
  cases hgoes with
  | applied hbinds => exact ⟨_, _, hbinds.keyOf?_left, rfl⟩

/-! ### Puts, updates, deletes and checks -/

/-- Stores a whole item under its key. -/
def put (table : String) (context : RequestContext) (item : Item) (condition : Option String)
    (bindings : Bindings) : KeyedWrite where
  table := table
  context := context
  condition := condition
  bindings := bindings
  key held := match held.keys.keyOf? item with
    | some key => .ok key
    | none => .error .missingKeyAttributes
  change _ _ _ := .ok (some item)
  key_whole := by
    intro held exact hkey
    cases hitem : held.keys.keyOf? item with
    | none =>
      rw [hitem] at hkey
      cases hkey
    | some found =>
      rw [hitem] at hkey
      cases hkey
      exact KeyNames.keyOf?_self hitem
  change_keeps := by
    intro held exact found left hkey _ hchange
    cases hchange
    cases hitem : held.keys.keyOf? item with
    | none =>
      rw [hitem] at hkey
      cases hkey
    | some found =>
      rw [hitem] at hkey
      cases hkey
      rfl

/-- Updates the item under a key, which begins with its key attributes when it is new. -/
def update (table : String) (context : RequestContext) (key : Item) (expression : String)
    (condition : Option String) (bindings : Bindings) : KeyedWrite where
  table := table
  context := context
  condition := condition
  bindings := bindings
  key held := held.exactKey key
  change held exact found := do
    let updated ← applyUpdate (found.getD exact) expression bindings
    if held.keys.keyOf? updated ≠ some exact then throw .keyChanged
    return some updated
  key_whole hkey := KeyNames.keyOf?_self (StoredTable.exactKey_ok hkey)
  change_keeps := by
    intro held exact found item _ _ hchange
    obtain ⟨updated, _, hchange⟩ := bind_eq_ok_iff.mp hchange
    by_cases hmoved : held.keys.keyOf? updated ≠ some exact
    · rw [if_pos hmoved] at hchange
      cases hchange
    · rw [if_neg hmoved] at hchange
      cases hchange
      exact not_not.mp hmoved

/-- Removes the item under a key. -/
def delete (table : String) (context : RequestContext) (key : Item) (condition : Option String)
    (bindings : Bindings) : KeyedWrite where
  table := table
  context := context
  condition := condition
  bindings := bindings
  key held := held.exactKey key
  change _ _ _ := .ok none
  key_whole hkey := KeyNames.keyOf?_self (StoredTable.exactKey_ok hkey)
  change_keeps := by
    intro held exact found item _ _ hchange
    cases hchange

/-- Leaves the item under a key as it is. -/
def check (table : String) (context : RequestContext) (key : Item) (condition : String)
    (bindings : Bindings) : KeyedWrite where
  table := table
  context := context
  condition := some condition
  bindings := bindings
  key held := held.exactKey key
  change _ _ found := .ok found
  key_whole hkey := KeyNames.keyOf?_self (StoredTable.exactKey_ok hkey)
  change_keeps := by
    intro held exact found item _ hfound hchange
    cases hchange
    exact hfound item rfl

end KeyedWrite

/-! ### What tables make of writes -/

def Outcome.map {α β : Type} (change : α → β) : Outcome α → Outcome β
  | .applied result => .applied (change result)
  | .rejected => .rejected

/-- What a table makes of a step is what it makes of a write, told otherwise. -/
def KeyedWrite.Describes {α : Type} (write : KeyedWrite) (rebinding : StoredTable → α → Rebinding)
    (step : StoredTable → Except Fault (Outcome (StoredTable × α))) : Prop :=
  ∀ table, write.step table =
    (step table).map (Outcome.map fun done => (done.1, rebinding table done.2))

/-- A step leaves under one key what it tells. -/
theorem KeyedWrite.Describes.exists_bind {α : Type} {write : KeyedWrite}
    {rebinding : StoredTable → α → Rebinding}
    {step : StoredTable → Except Fault (Outcome (StoredTable × α))} {table later : StoredTable}
    {result : α} (hdescribes : write.Describes rebinding step)
    (hstep : step table = .ok (.applied (later, result))) :
    ∃ key, later = table.bind key (rebinding table result).left := by
  have hgoes : write.Goes table (.ok (.applied (later, rebinding table result))) := by
    have hwritten := write.goes_step table
    rw [hdescribes table, hstep] at hwritten
    exact hwritten
  generalize rebinding table result = rebound at hgoes ⊢
  cases hgoes with
  | applied hbinds => exact ⟨_, rfl⟩

section Describes

variable {name : String} {context : RequestContext} {condition : Option String}
  {bindings : Bindings}

theorem describes_put (item : Item) :
    (KeyedWrite.put name context item condition bindings).Describes (fun _ old => ⟨old, some item⟩)
      fun table => table.put item condition bindings := by
  intro table
  unfold KeyedWrite.step StoredTable.put
  dsimp only [KeyedWrite.put]
  cases table.keys.keyOf? item with
  | none => rfl
  | some key =>
    simp only [ok_bind]
    cases meets ((table.find? key).getD []) condition bindings with
    | error fault => rfl
    | ok accepted => cases accepted <;> rfl

theorem describes_update (key : Item) (expression : String) :
    (KeyedWrite.update name context key expression condition bindings).Describes
      (fun _ updated => ⟨updated.old, some updated.new⟩)
      fun table => table.update key expression condition bindings := by
  intro table
  unfold KeyedWrite.step StoredTable.update
  dsimp only [KeyedWrite.update]
  cases table.exactKey key with
  | error fault => rfl
  | ok exact =>
    simp only [ok_bind]
    cases meets ((table.find? exact).getD []) condition bindings with
    | error fault => rfl
    | ok accepted =>
      simp only [ok_bind]
      cases accepted with
      | false => rfl
      | true =>
        rw [if_pos rfl, if_pos rfl]
        cases applyUpdate ((table.find? exact).getD exact) expression bindings with
        | error fault => rfl
        | ok updated =>
          rw [ok_bind, ok_bind]
          by_cases hmoved : table.keys.keyOf? updated ≠ some exact
          · rw [if_pos hmoved, if_pos hmoved]
            rfl
          · rw [if_neg hmoved, if_neg hmoved]
            rfl

theorem describes_delete (key : Item) :
    (KeyedWrite.delete name context key condition bindings).Describes (fun _ old => ⟨old, none⟩)
      fun table => table.delete key condition bindings := by
  intro table
  unfold KeyedWrite.step StoredTable.delete
  dsimp only [KeyedWrite.delete]
  cases table.exactKey key with
  | error fault => rfl
  | ok exact =>
    simp only [ok_bind]
    cases meets ((table.find? exact).getD []) condition bindings with
    | error fault => rfl
    | ok accepted => cases accepted <;> rfl

/-- What a table holds under a requested key. -/
def StoredTable.held (table : StoredTable) (key : Item) : Option Item :=
  (table.exactKey key).toOption.bind table.find?

theorem describes_check (key : Item) (condition : String) :
    (KeyedWrite.check name context key condition bindings).Describes
      (fun table _ => ⟨table.held key, table.held key⟩)
      fun table => table.check key condition bindings := by
  intro table
  unfold KeyedWrite.step StoredTable.check StoredTable.held
  dsimp only [KeyedWrite.check]
  cases hexact : table.exactKey key with
  | error fault => rfl
  | ok exact =>
    have hwhole := KeyNames.keyOf?_self (StoredTable.exactKey_ok hexact)
    have hleft := StoredTable.bind_contents hwhole
    rw [← StoredTable.find?_eq_contents hwhole] at hleft
    simp only [ok_bind]
    cases meets ((table.find? exact).getD []) (some condition) bindings with
    | error fault => rfl
    | ok accepted =>
      cases accepted with
      | false => rfl
      | true =>
        simp only [ok_bind]
        rw [if_pos trivial, if_pos trivial, hleft]
        rfl

end Describes

/-! ### Runs -/

/-- How a call runs that makes one write and then only answers what it found and left. -/
inductive KeyedWrite.Runs {α : Type} (write : KeyedWrite)
    (answer : Outcome Rebinding → Except Error α) (store : Store) : Except Error α × Store → Prop where
  | applied {table : StoredTable} {key : Item} {left : Option Item}
    (htable : store.table? write.table = some table) (hbinds : write.Binds table key left) :
    Runs write answer store (answer (.applied ⟨table.contents key, left⟩),
      store.setTable write.table (table.bind key left))
  | rejected {table : StoredTable} (htable : store.table? write.table = some table)
    (hdenied : write.Denied table) : Runs write answer store (answer .rejected, store)
  | refused {table : StoredTable} {fault : Fault} (htable : store.table? write.table = some table)
    (hfaults : write.Faults table fault) :
    Runs write answer store (.error (.invalidRequest fault write.context), store)
  | missing (hmissing : store.table? write.table = none) :
    Runs write answer store (.error (.missingTable write.table write.context), store)

/-- How a call ends that makes one write: one key of a map is bound anew, or every table stays as it
was. -/
inductive KeyedWrite.Ends {α : Type} (write : KeyedWrite)
    (answer : Outcome Rebinding → Except Error α) (store : Store) : Except Error α × Store → Prop where
  | applied {table written : StoredTable} {key : Item} {left : Option Item} {later : Store}
    (htable : store.table? write.table = some table) (hbinds : write.Binds table key left)
    (hwritten : later.table? write.table = some written) (hkeys : written.keys = table.keys)
    (hcontents : written.contents = Function.update table.contents key left)
    (hothers : ∀ other, other ≠ write.table → later.table? other = store.table? other) :
    Ends write answer store (answer (.applied ⟨table.contents key, left⟩), later)
  | rejected {table : StoredTable} {later : Store} (htable : store.table? write.table = some table)
    (hdenied : write.Denied table) (hsame : later.tables = store.tables) :
    Ends write answer store (answer .rejected, later)
  | refused {table : StoredTable} {fault : Fault} {later : Store}
    (htable : store.table? write.table = some table) (hfaults : write.Faults table fault)
    (hsame : later.tables = store.tables) :
    Ends write answer store (.error (.invalidRequest fault write.context), later)
  | missing {later : Store} (hmissing : store.table? write.table = none)
    (hsame : later.tables = store.tables) :
    Ends write answer store (.error (.missingTable write.table write.context), later)

section Runs

variable {α β : Type} {write : KeyedWrite} {answer : Outcome Rebinding → Except Error α}
  {store : Store}

theorem KeyedWrite.runs_write {rebinding : StoredTable → β → Rebinding}
    {step : StoredTable → Except Fault (Outcome (StoredTable × β))}
    {next : Outcome β → StoreCall α} (hdescribes : write.Describes rebinding step)
    (hnext : ∀ table outcome state,
      (next outcome).run.run state = (answer (outcome.map (rebinding table)), state)) :
    write.Runs answer store
      ((Store.write write.table write.context step >>= next).run.run store) := by
  cases htable : store.table? write.table with
  | none =>
    rw [run_bind_of_error (Store.run_write_of_missing write.context htable step)]
    exact .missing htable
  | some table =>
    have hrun := Store.run_write write.context htable step
    have hgoes := write.goes_step table
    rw [hdescribes table] at hgoes
    cases hstep : step table with
    | error fault =>
      rw [hstep] at hrun hgoes
      rw [run_bind_of_error hrun]
      cases hgoes with
      | refused hfaults => exact .refused htable hfaults
    | ok outcome =>
      rw [hstep] at hrun hgoes
      cases outcome with
      | rejected =>
        rw [run_bind_of_ok hrun, hnext table]
        cases hgoes with
        | rejected hdenied => exact .rejected htable hdenied
      | applied result =>
        obtain ⟨later, result⟩ := result
        rw [run_bind_of_ok hrun, hnext table]
        change write.Goes table (.ok (.applied (later, rebinding table result))) at hgoes
        change write.Runs answer store (answer (.applied (rebinding table result)), _)
        generalize rebinding table result = made at hgoes
        cases hgoes with
        | applied hbinds => exact .applied htable hbinds

/-- Where no two items have the same key, a write binds its key and no other one. -/
theorem KeyedWrite.Runs.ends {result : Except Error α × Store}
    (hkeyed : ∀ table, store.table? write.table = some table → table.Keyed)
    (hruns : write.Runs answer store result) : write.Ends answer store result := by
  cases hruns with
  | applied htable hbinds =>
    refine .applied htable hbinds (Store.table?_setTable _ _ _) (StoredTable.keys_bind _ _ _) ?_ ?_
    · exact (hkeyed _ htable).contents_bind (write.key_whole hbinds.key_eq) hbinds.keyOf?_left
    · exact fun other hne => Store.table?_setTable_of_ne _ _ hne
  | rejected htable hdenied => exact .rejected htable hdenied rfl
  | refused htable hfaults => exact .refused htable hfaults rfl
  | missing hmissing => exact .missing hmissing rfl

theorem KeyedWrite.Ends.of_tables {earlier : Store} {result : Except Error α × Store}
    (hends : write.Ends answer store result) (hsame : store.tables = earlier.tables) :
    write.Ends answer earlier result := by
  have htables := Store.table?_congr hsame
  cases hends with
  | applied htable hbinds hwritten hkeys hcontents hothers =>
    exact .applied (htables _ ▸ htable) hbinds hwritten hkeys hcontents
      fun other hne => (hothers other hne).trans (htables other)
  | rejected htable hdenied hlater =>
    exact .rejected (htables _ ▸ htable) hdenied (hlater.trans hsame)
  | refused htable hfaults hlater =>
    exact .refused (htables _ ▸ htable) hfaults (hlater.trans hsame)
  | missing hmissing hlater => exact .missing (htables _ ▸ hmissing) (hlater.trans hsame)

/-- A recorded call that makes one write to a table of distinct keys and then only answers. -/
theorem KeyedWrite.ends_recorded {rebinding : StoredTable → β → Rebinding}
    {step : StoredTable → Except Fault (Outcome (StoredTable × β))}
    {next : Outcome β → StoreCall α} (operation : Operation)
    (hkeyed : ∀ table, store.table? write.table = some table → table.Keyed)
    (hdescribes : write.Describes rebinding step)
    (hnext : ∀ table outcome state,
      (next outcome).run.run state = (answer (outcome.map (rebinding table)), state)) :
    write.Ends answer store ((do
      Store.record operation write.table 1
      next (← Store.write write.table write.context step)).run.run store) := by
  have hrecord : (Store.record operation write.table 1).run.run store =
      (.ok (), store.recorded operation write.table) := rfl
  have hends : write.Ends answer (store.recorded operation write.table)
      ((Store.write write.table write.context step >>= next).run.run
        (store.recorded operation write.table)) := (runs_write hdescribes hnext).ends hkeyed
  rw [run_bind_of_ok hrecord]
  exact hends.of_tables (Store.tables_recorded store operation write.table)

end Runs

end RecordStore
