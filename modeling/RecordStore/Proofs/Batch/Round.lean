import RecordStore.Proofs.Batch.Chunk
import RecordStore.Proofs.Store.Table

/-!
# Rounds of a batch

A batch call makes the writes to each table one by one, as if each was made by itself. In a round
that leaves work unprocessed these are the first half of the writes to each table, and the others
are left in their order.
-/

namespace RecordStore

open Expression (Fault)
open Entries (under)
open Batch (Grouped)

/-! ### Single writes -/

/-- What a write that needs no condition leaves. -/
def Outcome.left {α : Type} (stored : StoredTable) : Outcome (StoredTable × α) → StoredTable
  | .applied (left, _) => left
  | .rejected => stored

/-- Makes one put or delete by itself. -/
def StoredTable.make (stored : StoredTable) (entry : BatchEntry) : Except Fault StoredTable :=
  match entry.put, entry.delete with
  | some item, none => (stored.put item none .none).map (Outcome.left stored)
  | none, some key => (stored.delete key none .none).map (Outcome.left stored)
  | _, _ => .error .putOrDelete

/-- A write that tables with these keys take: the put of an item that has them all, or the delete of
a whole key. -/
inductive BatchEntry.Fits (keys : KeyNames) : BatchEntry → Prop where
  | put {item key : Item} (hkey : keys.keyOf? item = some key) : Fits keys ⟨some item, none⟩
  | delete {key : Item} (hkey : keys.keyOf? key = some key) : Fits keys ⟨none, some key⟩

namespace StoredTable

variable {stored left : StoredTable} {entry : BatchEntry}

theorem keys_put {item : Item} {condition : Option String} {bindings : Expression.Bindings}
    {outcome : Outcome (StoredTable × Option Item)}
    (hput : stored.put item condition bindings = .ok outcome) :
    (outcome.left stored).keys = stored.keys := by
  unfold put at hput
  split at hput
  · cases hput
  · obtain ⟨accepted, _, hput⟩ := bind_eq_ok_iff.mp hput
    split at hput <;> cases hput <;> rfl

theorem keys_delete {key : Item} {condition : Option String} {bindings : Expression.Bindings}
    {outcome : Outcome (StoredTable × Option Item)}
    (hdelete : stored.delete key condition bindings = .ok outcome) :
    (outcome.left stored).keys = stored.keys := by
  obtain ⟨exact, _, hdelete⟩ := bind_eq_ok_iff.mp hdelete
  obtain ⟨accepted, _, hdelete⟩ := bind_eq_ok_iff.mp hdelete
  split at hdelete <;> cases hdelete <;> rfl

theorem keys_make (hmake : stored.make entry = .ok left) : left.keys = stored.keys := by
  unfold make at hmake
  split at hmake
  · obtain ⟨outcome, hput, rfl⟩ := map_eq_ok_iff.mp hmake
    exact keys_put hput
  · obtain ⟨outcome, hdelete, rfl⟩ := map_eq_ok_iff.mp hmake
    exact keys_delete hdelete
  · cases hmake

theorem keys_makeAll {entries : List BatchEntry} (hmake : entries.foldlM make stored = .ok left) :
    left.keys = stored.keys :=
  @foldlM_invariant _ _ _ make (fun _ table => table.keys = stored.keys)
    (fun _ _ _ _ hheld hnext => (keys_make hnext).trans hheld) [] _ _ _ rfl hmake

theorem put_whatever {item key : Item} (hkey : stored.keys.keyOf? item = some key) :
    stored.put item none .none = .ok (.applied (stored.store key item, stored.find? key)) :=
  @put_of_meets stored key item none .none true hkey rfl

theorem delete_whatever {key : Item} (hkey : stored.keys.keyOf? key = some key) :
    stored.delete key none .none = .ok (.applied (stored.erase key, stored.find? key)) := by
  rw [delete, exactKey_of_keyOf? hkey]
  rfl

end StoredTable

/-! ### Tables after writes -/

/-- The tables that are left when the writes to each of them are made one by one. -/
def TablesAfter (writes : String → List BatchEntry) (tables later : List (String × StoredTable)) :
    Prop :=
  ∀ name, Option.Rel
    (fun stored left => (writes name).foldlM StoredTable.make stored = .ok left)
    (Entries.find? tables name) (Entries.find? later name)

/-- Writes to one table only. -/
def writesTo (name : String) (entries : List BatchEntry) : String → List BatchEntry :=
  fun other => if other = name then entries else []

namespace TablesAfter

variable {first second : String → List BatchEntry}
  {tables between later : List (String × StoredTable)}

theorem refl (tables : List (String × StoredTable)) : TablesAfter (fun _ => []) tables tables := by
  intro name
  cases Entries.find? tables name with
  | none => exact .none
  | some stored => exact .some rfl

theorem trans (hfirst : TablesAfter first tables between)
    (hsecond : TablesAfter second between later) :
    TablesAfter (fun name => first name ++ second name) tables later := by
  intro name
  have hmade := hfirst name
  have hmore := hsecond name
  generalize Entries.find? tables name = before at hmade ⊢
  generalize Entries.find? between name = middle at hmade hmore
  generalize Entries.find? later name = after at hmore ⊢
  cases hmade with
  | none =>
    cases hmore
    exact .none
  | some hmade =>
    cases hmore with
    | some hmore =>
      refine .some ?_
      rw [List.foldlM_append, hmade]
      exact hmore

theorem setTable {name : String} {stored left : StoredTable} {entries : List BatchEntry}
    (htable : Entries.find? tables name = some stored)
    (hmade : entries.foldlM StoredTable.make stored = .ok left) :
    TablesAfter (writesTo name entries) tables (Entries.put tables name left) := by
  intro other
  rw [Entries.find?_put]
  by_cases hname : other = name
  · rw [hname, htable, if_pos rfl]
    refine .some ?_
    rw [writesTo, if_pos rfl]
    exact hmade
  · rw [if_neg (Ne.symm hname), writesTo, if_neg hname]
    exact refl tables other

theorem keys {name : String} {stored : StoredTable} (hafter : TablesAfter first tables later)
    (htable : Entries.find? tables name = some stored) :
    ∃ left, Entries.find? later name = some left ∧ left.keys = stored.keys := by
  have hname := hafter name
  rw [htable] at hname
  cases hfind : Entries.find? later name with
  | none =>
    rw [hfind] at hname
    cases hname
  | some left =>
    rw [hfind] at hname
    cases hname with
    | some hmade => exact ⟨left, rfl, StoredTable.keys_makeAll hmade⟩

end TablesAfter

/-- A table takes the write that is for it. -/
def Accepts (tables : List (String × StoredTable)) (request : String × BatchEntry) : Prop :=
  ∃ stored, Entries.find? tables request.1 = some stored ∧ request.2.Fits stored.keys

/-- The tables take every write of the groups. -/
def Takes (tables : List (String × StoredTable)) (groups : List (String × List BatchEntry)) : Prop :=
  ∀ group ∈ groups, ∃ stored, Entries.find? tables group.1 = some stored ∧
    ∀ entry ∈ group.2, entry.Fits stored.keys

theorem takes_of_gathers {tables : List (String × StoredTable)}
    {requests : List (String × BatchEntry)} {groups : List (String × List BatchEntry)}
    (hgathers : Batch.Gathers requests groups) (hall : ∀ request ∈ requests, Accepts tables request) :
    Takes tables groups := by
  rintro ⟨name, entries⟩ hmem
  have hentries : entries = Batch.requestsFor name requests := by
    rw [← hgathers.under, under, Entries.find?_of_mem hgathers.ascending.nodup hmem]
    rfl
  have haccepts : ∀ entry ∈ entries, Accepts tables (name, entry) := fun entry hentry =>
    hall _ (Batch.mem_requestsFor.mp (hentries ▸ hentry))
  -- A group is not empty, so its table is known from its first write.
  obtain ⟨first, hfirst⟩ := List.exists_mem_of_ne_nil entries (hgathers.nonempty _ hmem)
  obtain ⟨stored, htable, _⟩ := haccepts first hfirst
  refine ⟨stored, htable, fun entry hentry => ?_⟩
  obtain ⟨other, hother, hfits⟩ := haccepts entry hentry
  cases htable.symm.trans hother
  exact hfits

theorem TablesAfter.accepts {writes : String → List BatchEntry}
    {tables later : List (String × StoredTable)} {request : String × BatchEntry}
    (hafter : TablesAfter writes tables later) (haccepts : Accepts tables request) :
    Accepts later request := by
  obtain ⟨stored, htable, hfits⟩ := haccepts
  obtain ⟨left, hleft, hkeys⟩ := hafter.keys htable
  exact ⟨left, hleft, hkeys ▸ hfits⟩

theorem TablesAfter.takes {writes : String → List BatchEntry}
    {tables later : List (String × StoredTable)} {groups : List (String × List BatchEntry)}
    (hafter : TablesAfter writes tables later) (htakes : Takes tables groups) :
    Takes later groups := by
  intro group hmem
  obtain ⟨stored, htable, hfits⟩ := htakes group hmem
  obtain ⟨left, hleft, hkeys⟩ := hafter.keys htable
  refine ⟨left, hleft, fun entry hentry => ?_⟩
  rw [hkeys]
  exact hfits entry hentry

/-! ### Writes of one call -/

namespace Store

variable {store : Store} {name : String} {stored : StoredTable}

/-- A write of a call leaves the table that it leaves by itself. -/
theorem run_writeEntry (context : RequestContext) {entry : BatchEntry}
    (htable : store.table? name = some stored) (hfits : entry.Fits stored.keys) :
    ∃ left, stored.make entry = .ok left ∧
      (writeEntry name context entry).run.run store = (.ok (), store.setTable name left) := by
  cases hfits with
  | @put item key hkey =>
    have hput := StoredTable.put_whatever hkey
    refine ⟨stored.store key item, congrArg (Except.map (Outcome.left stored)) hput, ?_⟩
    change ((write name context fun table => table.put item none .none) >>= fun _ => pure ()).run.run
      store = _
    rw [run_bind_of_ok (run_write_of_applied context htable hput)]
    rfl
  | @delete key hkey =>
    have hdelete := StoredTable.delete_whatever hkey
    refine ⟨stored.erase key, congrArg (Except.map (Outcome.left stored)) hdelete, ?_⟩
    change ((write name context fun table => table.delete key none .none) >>= fun _ =>
      pure ()).run.run store = _
    rw [run_bind_of_ok (run_write_of_applied context htable hdelete)]
    rfl

theorem run_writeEntries (context : RequestContext) {entries : List BatchEntry}
    (htable : store.table? name = some stored) (hfits : ∀ entry ∈ entries, entry.Fits stored.keys) :
    ∃ tables, (entries.forM (writeEntry name context)).run.run store =
        (.ok (), { store with tables }) ∧ TablesAfter (writesTo name entries) store.tables tables := by
  induction entries generalizing store stored with
  | nil =>
    refine ⟨store.tables, rfl, ?_⟩
    have hnone : writesTo name [] = fun _ => [] := funext fun other => ite_self _
    rw [hnone]
    exact .refl _
  | cons entry rest ih =>
    obtain ⟨left, hmake, hwrite⟩ := run_writeEntry context htable (hfits entry List.mem_cons_self)
    have hleft : (store.setTable name left).table? name = some left := table?_setTable store name left
    obtain ⟨tables, hrest, hafter⟩ := ih hleft fun other hmem => by
      rw [StoredTable.keys_make hmake]
      exact hfits other (List.mem_cons_of_mem _ hmem)
    have hfirst : TablesAfter (writesTo name [entry]) store.tables (store.setTable name left).tables :=
      .setTable htable (by rw [List.foldlM_cons, hmake]; rfl)
    refine ⟨tables, ?_, ?_⟩
    · change (writeEntry name context entry >>= fun _ =>
        rest.forM (writeEntry name context)).run.run store = _
      rw [run_bind_of_ok hwrite, hrest]
      rfl
    · have hwrites : writesTo name (entry :: rest) =
          fun other => writesTo name [entry] other ++ writesTo name rest other := by
        funext other
        by_cases hname : other = name <;> simp [writesTo, hname]
      rw [hwrites]
      exact hfirst.trans hafter

end Store

/-! ### What a round leaves -/

namespace Batch

variable {α : Type} {throttled : Bool} {groups : List (String × List α)}

/-- The requests that a round handles. -/
def handled (throttled : Bool) (groups : List (String × List α)) :
    List (String × List α) :=
  groups.map fun group =>
    (group.1, group.2.take (Store.processedCount throttled group.2.length))

/-- The requests that a round leaves unprocessed. -/
def remaining (throttled : Bool) (groups : List (String × List α)) :
    List (String × List α) :=
  groups.flatMap fun group =>
    Store.leftOver group.1 (group.2.drop (Store.processedCount throttled group.2.length)) id

theorem under_handled (name : String) : under (handled throttled groups) name =
    (under groups name).take (Store.processedCount throttled (under groups name).length) := by
  induction groups with
  | nil => exact List.take_nil.symm
  | cons group rest ih =>
    change under ((group.1, _) :: handled throttled rest) name = _
    rw [Entries.under_cons, Entries.under_cons, ih]
    split <;> rfl

theorem name_of_mem_leftOver {name : String} {entries : List α}
    {group : String × List α} (hmem : group ∈ Store.leftOver name entries id) :
    group.1 = name := by
  unfold Store.leftOver at hmem
  split at hmem
  · cases hmem
  · rw [List.mem_singleton.mp hmem]

theorem mem_remaining {group : String × List α} (hmem : group ∈ remaining throttled groups) :
    group.2 ≠ [] ∧ ∃ whole ∈ groups, whole.1 = group.1 ∧
      group.2 = whole.2.drop (Store.processedCount throttled whole.2.length) := by
  obtain ⟨whole, hwhole, hmem⟩ := List.mem_flatMap.mp hmem
  unfold Store.leftOver at hmem
  split at hmem
  · cases hmem
  · rename_i hleft
    rw [List.mem_singleton.mp hmem]
    exact ⟨by simpa using hleft, whole, hwhole, rfl, rfl⟩

theorem under_remaining (hnames : (Entries.names groups).Nodup) (name : String) :
    under (remaining throttled groups) name =
      (under groups name).drop (Store.processedCount throttled (under groups name).length) := by
  induction groups with
  | nil => exact List.drop_nil.symm
  | cons group rest ih =>
    obtain ⟨hfresh, hrest⟩ := List.nodup_cons.mp hnames
    change under (Store.leftOver group.1 _ id ++ remaining throttled rest) name = _
    rw [Entries.under_cons]
    unfold Store.leftOver
    by_cases hname : group.1 = name
    · rw [if_pos hname]
      split
      · rename_i hnone
        -- The name comes once, so nothing is left under it.
        rw [List.isEmpty_iff.mp hnone, List.nil_append]
        apply Entries.under_of_fresh
        intro other hother hsame
        obtain ⟨_, whole, hwhole, hsource, _⟩ := mem_remaining hother
        apply hfresh
        rw [hname, ← hsame, ← hsource]
        exact List.mem_map_of_mem hwhole
      · rw [List.singleton_append, Entries.under_cons, if_pos hname]
        rfl
    · rw [if_neg hname, ← ih hrest]
      split
      · rw [List.nil_append]
      · rw [List.singleton_append, Entries.under_cons, if_neg hname]

/-- A round loses no request, and keeps the order of those for each table. -/
theorem under_handled_append_remaining (throttled : Bool) (hnames : (Entries.names groups).Nodup)
    (name : String) : under (handled throttled groups) name ++ under (remaining throttled groups) name =
      under groups name := by
  rw [under_handled, under_remaining hnames, List.take_append_drop]

theorem remaining_unthrottled (groups : List (String × List α)) :
    remaining false groups = [] := by
  rw [List.eq_nil_iff_forall_not_mem]
  intro group hmem
  obtain ⟨hleft, whole, _, _, hdrop⟩ := mem_remaining hmem
  rw [hdrop] at hleft
  exact hleft (List.drop_eq_nil_of_le (Nat.le_refl _))

/-- A throttled round leaves something of every group. -/
theorem remaining_throttled_ne_nil (hgrouped : Grouped groups) (hgroups : groups ≠ []) :
    remaining true groups ≠ [] := by
  obtain ⟨group, rest, rfl⟩ := List.exists_cons_of_ne_nil hgroups
  have hpos := List.length_pos_iff.mpr (hgrouped.nonempty group List.mem_cons_self)
  have hleft : (group.2.drop (group.2.length / 2)).isEmpty = false := by
    rw [← Bool.not_eq_true, List.isEmpty_iff, List.drop_eq_nil_iff]
    omega
  change Store.leftOver group.1 (group.2.drop (group.2.length / 2)) id ++ _ ≠ []
  rw [Store.leftOver, hleft]
  exact List.cons_ne_nil _ _

theorem count_remaining_le (throttled : Bool) (groups : List (String × List α)) :
    Entries.count (remaining throttled groups) ≤ Entries.count groups := by
  induction groups with
  | nil => exact Nat.le_refl _
  | cons group rest ih =>
    change Entries.count (Store.leftOver group.1 _ id ++ remaining throttled rest) ≤
      group.2.length + Entries.count rest
    unfold Store.leftOver
    split
    · exact Nat.le_trans ih (Nat.le_add_left _ _)
    · rw [List.singleton_append, Entries.count, id_eq, List.length_drop]
      omega

theorem Grouped.remaining (hgrouped : Grouped groups) (throttled : Bool) :
    Grouped (Batch.remaining throttled groups) where
  ascending := by
    refine List.pairwise_flatMap.mpr ⟨fun group _ => ?_, hgrouped.ascending.imp ?_⟩
    · unfold Store.leftOver
      split
      · exact .nil
      · exact List.pairwise_singleton _ _
    · intro first second hless left hleft right hright
      rw [name_of_mem_leftOver hleft, name_of_mem_leftOver hright]
      exact hless
  nonempty := fun group hmem => (mem_remaining hmem).1

theorem Grouped.count_pos (hgrouped : Grouped groups) (hgroups : groups ≠ []) :
    1 ≤ Entries.count groups := by
  obtain ⟨group, rest, rfl⟩ := List.exists_cons_of_ne_nil hgroups
  have hpos := List.length_pos_iff.mpr (hgrouped.nonempty group List.mem_cons_self)
  simp only [Entries.count]
  omega

end Batch

theorem Takes.remaining {tables : List (String × StoredTable)}
    {groups : List (String × List BatchEntry)} (htakes : Takes tables groups) (throttled : Bool) :
    Takes tables (Batch.remaining throttled groups) := by
  intro group hmem
  obtain ⟨_, whole, hwhole, hname, hdrop⟩ := Batch.mem_remaining hmem
  obtain ⟨stored, htable, hfits⟩ := htakes whole hwhole
  rw [← hname, hdrop]
  exact ⟨stored, htable, fun entry hentry => hfits entry (List.mem_of_mem_drop hentry)⟩

/-! ### Runs of calls -/

namespace Store

variable {store : Store} {groups : List (String × List BatchEntry)}

theorem run_batchWriteTable (context : RequestContext) (throttled : Bool) {name : String}
    {entries : List BatchEntry} {stored : StoredTable} (htable : store.table? name = some stored)
    (hfits : ∀ entry ∈ entries, entry.Fits stored.keys) :
    ∃ capacities tables, (batchWriteTable context throttled true name entries).run.run store =
        (.ok ⟨leftOver name (entries.drop (processedCount throttled entries.length)) id, capacities⟩,
          { store with tables }) ∧
      TablesAfter (writesTo name (entries.take (processedCount throttled entries.length)))
        store.tables tables := by
  have hhandled : ∀ entry ∈ entries.take (processedCount throttled entries.length),
      entry.Fits stored.keys := fun entry hmem => hfits entry (List.mem_of_mem_take hmem)
  obtain ⟨tables, hwrites, hafter⟩ := run_writeEntries context htable hhandled
  refine ⟨(capacity true name (processedCount throttled entries.length)).toList, tables, ?_, hafter⟩
  rw [batchWriteTable, run_bind_of_ok (run_requireTable context htable), run_bind_of_ok hwrites]
  rfl

theorem run_batchWriteTables (context : RequestContext) (throttled : Bool)
    (hnames : (Entries.names groups).Nodup) (htakes : Takes store.tables groups) :
    ∃ capacities tables, (batchWriteTables context throttled true groups).run.run store =
        (.ok ⟨Batch.remaining throttled groups, capacities⟩, { store with tables }) ∧
      TablesAfter (under (Batch.handled throttled groups)) store.tables tables := by
  induction groups generalizing store with
  | nil => exact ⟨[], store.tables, rfl, .refl _⟩
  | cons group rest ih =>
    obtain ⟨name, entries⟩ := group
    obtain ⟨hfresh, hrest⟩ := List.nodup_cons.mp hnames
    obtain ⟨stored, htable, hfits⟩ := htakes (name, entries) List.mem_cons_self
    obtain ⟨firstCapacities, between, hfirst, hbetween⟩ :=
      run_batchWriteTable context throttled htable hfits
    obtain ⟨otherCapacities, tables, hothers, hafter⟩ := @ih { store with tables := between } hrest
      (hbetween.takes fun group hmem => htakes group (List.mem_cons_of_mem _ hmem))
    refine ⟨firstCapacities ++ otherCapacities, tables, ?_, ?_⟩
    · rw [batchWriteTables, run_bind_of_ok hfirst, run_bind_of_ok hothers]
      rfl
    · have hwrites : under (Batch.handled throttled ((name, entries) :: rest)) = fun other =>
          writesTo name (entries.take (processedCount throttled entries.length)) other ++
            under (Batch.handled throttled rest) other := by
        funext other
        change under ((name, _) :: Batch.handled throttled rest) other = _
        rw [Entries.under_cons, writesTo]
        by_cases hname : name = other
        · -- The name comes once, so nothing else is written under it.
          have hnone : under rest other = [] := Entries.under_of_fresh fun group hmem hsame =>
            hfresh (List.mem_map.mpr ⟨group, hmem, hsame.trans hname.symm⟩)
          rw [if_pos hname, if_pos hname.symm, Batch.under_handled, hnone, List.take_nil,
            List.append_nil]
        · rw [if_neg hname, if_neg (Ne.symm hname), List.nil_append]
      rw [hwrites]
      exact hbetween.trans hafter

/-- Whether the next batch call leaves work unprocessed. -/
def throttles (store : Store) : Bool :=
  store.unprocessedRounds ≠ 0

theorem run_takeUnprocessedRound (store : Store) : takeUnprocessedRound.run.run store =
    (.ok store.throttles, { store with unprocessedRounds := store.unprocessedRounds - 1 }) := by
  obtain ⟨tables, calls, rounds⟩ := store
  cases rounds <;> rfl

/-- How a batch call is recorded. -/
def batchCall (groups : List (String × List BatchEntry)) : Call :=
  ⟨.batchWriteItem, (RequestContext.ofTables (Entries.names groups)).table, Entries.count groups⟩

/-- A batch call makes the writes of its round and answers the others. -/
theorem run_batchWrite (hnames : (Entries.names groups).Nodup) (htakes : Takes store.tables groups) :
    ∃ capacities tables, (batchWrite groups true).run.run store =
        (.ok ⟨Batch.remaining store.throttles groups, capacities⟩,
          ⟨tables, store.calls ++ [batchCall groups], store.unprocessedRounds - 1⟩) ∧
      TablesAfter (under (Batch.handled store.throttles groups)) store.tables tables := by
  have hrecord : (record .batchWriteItem (RequestContext.ofTables (Entries.names groups)).table
      (Entries.count groups)).run.run store =
        (.ok (), { store with calls := store.calls ++ [batchCall groups] }) := rfl
  have htake := run_takeUnprocessedRound { store with calls := store.calls ++ [batchCall groups] }
  obtain ⟨capacities, tables, hwrite, hafter⟩ := @run_batchWriteTables
    ⟨store.tables, store.calls ++ [batchCall groups], store.unprocessedRounds - 1⟩ groups
    (.ofTables (Entries.names groups)) store.throttles hnames htakes
  refine ⟨capacities, tables, ?_, hafter⟩
  rw [batchWrite, run_bind_of_ok hrecord, run_bind_of_ok htake]
  exact hwrite

end Store

end RecordStore
