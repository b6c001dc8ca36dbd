import RecordStore.Client.Transaction
import RecordStore.Proofs.Client.Call
import RecordStore.Proofs.Expression.Builder
import RecordStore.Proofs.Store.Transaction

/-!
# Transactions of a client

A client sends one action for each part of a transaction, except for the updates that write nothing.
It answers what each part leaves stored.
-/

namespace RecordStore

/-! ### Updates that write nothing -/

namespace Expression.Builder

theorem group_eq_nil_iff (keyword : String) (clauses : List String) :
    group keyword clauses = [] ↔ clauses = [] := by
  cases clauses <;> simp [group]

theorem update_eq_none_iff (builder : Builder) :
    builder.compile.update = none ↔ builder.hasUpdates = false := by
  simp [compile, joined, hasUpdates, group_eq_nil_iff, and_assoc]

theorem hasUpdates_withAliases {α : Type} (computation : Rendering α) :
    Preserves (fun builder : Builder => builder.hasUpdates = true) (withAliases computation) :=
  fun _ hupdates => hupdates

theorem hasUpdates_requireEqual (path : List String) (value : Attribute) :
    Preserves (fun builder : Builder => builder.hasUpdates = true) (requireEqual path value) :=
  (hasUpdates_withAliases _).bind fun _ => (hasUpdates_withAliases _).bind fun _ =>
    .modify fun _ hupdates => hupdates

theorem hasUpdates_requireAbsentOrLess (path : List String) (value : Attribute) :
    Preserves (fun builder : Builder => builder.hasUpdates = true)
      (requireAbsentOrLess path value) :=
  (hasUpdates_withAliases _).bind fun _ => (hasUpdates_withAliases _).bind fun _ =>
    .modify fun _ hupdates => hupdates

theorem hasUpdates_setAttribute (path : List String) (value : Attribute) :
    Preserves (fun builder : Builder => builder.hasUpdates = true) (setAttribute path value) := by
  refine (hasUpdates_withAliases _).bind fun _ => (hasUpdates_withAliases _).bind fun _ =>
    .modify fun builder _ => ?_
  simp [hasUpdates]

end Expression.Builder

namespace Update

open Expression (Builder Building Compiled)

variable {table : TableSchema} {update : Update}

/-- The fences of an update leave its clauses there. -/
theorem hasUpdates_fences (table : TableSchema) (observed : Int64) :
    Preserves (fun builder : Builder => builder.hasUpdates = true) (do
      requireVersion table
      if table.optimisticLocking then advanceRevision table observed) := by
  have hversion : Preserves (fun builder : Builder => builder.hasUpdates = true)
      (requireVersion table) := by
    unfold requireVersion
    split
    · exact Builder.hasUpdates_requireEqual _ _
    · exact Builder.hasUpdates_requireAbsentOrLess _ _
  have hrevision : Preserves (fun builder : Builder => builder.hasUpdates = true)
      (advanceRevision table observed) := by
    refine (Builder.hasUpdates_setAttribute _ _).bind fun _ => ?_
    split
    · exact Builder.hasUpdates_requireEqual _ _
    · exact .pure _
  refine hversion.bind fun _ => ?_
  split
  · exact hrevision
  · exact .pure _

/-- An update compiles to the clauses of its changes, with its fences unless there are none. -/
theorem compile_cases {compiled : Compiled} (hcompile : update.compile table = .ok compiled) :
    ∃ between, Builder.run "" (update.object.compile table) = .ok ((), between) ∧
      (between.hasUpdates = false ∧ compiled = between.compile ∨
        between.hasUpdates = true ∧ ∃ last, (do
          requireVersion table
          if table.optimisticLocking then
            advanceRevision table update.object.base.revision : Building Unit).run.run between =
              (.ok (), last) ∧ compiled = last.compile) := by
  unfold compile Builder.run at hcompile
  unfold Builder.run
  rcases hobject : (update.object.compile table).run.run (Builder.empty "") with ⟨outcome, between⟩
  cases outcome with
  | error error =>
    rw [build, run_bind_of_error hobject] at hcompile
    cases hcompile
  | ok done =>
    have hget : (MonadState.get : Building Builder).run.run between = (.ok between, between) := rfl
    rw [build, run_bind_of_ok hobject, run_bind_of_ok hget] at hcompile
    refine ⟨between, rfl, ?_⟩
    cases hupdates : between.hasUpdates with
    | false =>
      rw [hupdates] at hcompile
      cases hcompile
      exact .inl ⟨rfl, rfl⟩
    | true =>
      rw [hupdates, if_pos rfl] at hcompile
      rcases hfences : (do
        requireVersion table
        if table.optimisticLocking then
          advanceRevision table update.object.base.revision : Building Unit).run.run between with
        ⟨outcome, last⟩
      rw [hfences] at hcompile
      cases outcome with
      | error error => cases hcompile
      | ok done =>
        cases hcompile
        exact .inr ⟨rfl, last, rfl, rfl⟩

/-- An update has no clauses exactly if it writes nothing. -/
theorem writes_eq {compiled : Compiled} (hcompile : update.compile table = .ok compiled) :
    update.writes table = .ok compiled.update.isSome := by
  obtain ⟨between, hrun, hcases⟩ := compile_cases hcompile
  have hwrites : update.writes table = .ok between.hasUpdates := by
    rw [writes, hrun]
    rfl
  rcases hcases with ⟨hupdates, rfl⟩ | ⟨hupdates, last, hfences, rfl⟩
  · rw [hwrites, hupdates, (Builder.update_eq_none_iff between).mpr hupdates]
    rfl
  · have hkept := hasUpdates_fences table update.object.base.revision between hupdates
    rw [hfences] at hkept
    have hsome : last.compile.update ≠ none := by
      rw [Ne, Builder.update_eq_none_iff, Bool.not_eq_false]
      exact hkept
    rw [hwrites, hupdates, Option.isSome_iff_ne_none.mpr hsome]

end Update

/-! ### Parts of transactions -/

/-- What a part of a transaction becomes: an action on the store, unless it is an update that writes
nothing, and the record that it leaves stored. -/
inductive TransactWrite.Becomes (client : Client) : TransactWrite → PreparedWrite → Prop where
  | put {tableName : String} {record : Record} {options : SaveOptions} {table : TableSchema}
    {prepared : PreparedPut} (htable : client.table tableName = .ok table)
    (hprepare : PreparedPut.prepare table record options false = .ok prepared) :
    Becomes client (.put tableName record options)
      ⟨some (.put table.name prepared.item prepared.compiled.guard), some prepared.record⟩
  | update {table : TableSchema} {update : Update} {compiled : Expression.Compiled}
    {expression : String} {view : Record} (hwrites : update.writes table = .ok true)
    (hcompile : update.compile table = .ok compiled) (hexpression : compiled.update = some expression)
    (hview : update.view table = .ok view) :
    Becomes client (.update table update)
      ⟨some (.update table.name update.key expression compiled.guard), some view⟩
  | leftOut {table : TableSchema} {update : Update} {view : Record}
    (hwrites : update.writes table = .ok false) (hview : update.view table = .ok view) :
    Becomes client (.update table update) ⟨none, some view⟩
  | delete {request : RecordDelete} {table : TableSchema} {key : Item} {guard : Guard}
    (htable : client.table request.table = .ok table)
    (hprepare : request.prepare table = .ok (key, guard)) :
    Becomes client (.delete request) ⟨some (.delete table.name key guard), none⟩
  | check {tableName : String} {key : RecordKey} {condition : Condition} {table : TableSchema}
    {stored : Item} {builder : Expression.Builder} (htable : client.table tableName = .ok table)
    (hkey : table.keys.toItem key = .ok stored)
    (hrequire : Expression.Builder.run "" (Expression.Builder.requireCondition table condition) =
      .ok ((), builder)) :
    Becomes client (.check tableName key condition)
      ⟨some (.check table.name stored (builder.compile.condition.getD "") builder.compile.guard),
        none⟩

theorem TransactWrite.becomes_of_prepareWrite {client : Client} {write : TransactWrite}
    {prepared : PreparedWrite} (hprepare : client.prepareWrite write = .ok prepared) :
    write.Becomes client prepared := by
  cases write with
  | put tableName record options =>
    obtain ⟨table, htable, hprepare⟩ := bind_eq_ok_iff.mp hprepare
    obtain ⟨put, hput, hdone⟩ := bind_eq_ok_iff.mp hprepare
    cases hdone
    exact .put htable hput
  | update table update =>
    obtain ⟨compiled, hcompile, hprepare⟩ := bind_eq_ok_iff.mp hprepare
    obtain ⟨view, hview, hdone⟩ := bind_eq_ok_iff.mp hprepare
    have hwrites := update.writes_eq hcompile
    cases hexpression : compiled.update with
    | none =>
      rw [hexpression] at hdone hwrites
      cases hdone
      exact .leftOut hwrites hview
    | some expression =>
      rw [hexpression] at hdone hwrites
      cases hdone
      exact .update hwrites hcompile hexpression hview
  | delete request =>
    obtain ⟨table, htable, hprepare⟩ := bind_eq_ok_iff.mp hprepare
    obtain ⟨⟨key, guard⟩, hkey, hdone⟩ := bind_eq_ok_iff.mp hprepare
    cases hdone
    exact .delete htable hkey
  | check tableName key condition =>
    obtain ⟨table, htable, hprepare⟩ := bind_eq_ok_iff.mp hprepare
    obtain ⟨stored, hkey, hprepare⟩ := bind_eq_ok_iff.mp hprepare
    obtain ⟨⟨⟨⟩, builder⟩, hrequire, hdone⟩ := bind_eq_ok_iff.mp hprepare
    cases hdone
    exact .check htable hkey hrequire

/-! ### Sending transactions -/

namespace Client

variable {client : Client} {writes : List TransactWrite} {session : Session}

/-- How sending a transaction ends. -/
inductive TransactSends (client : Client) (writes : List TransactWrite) (session : Session) :
    Except Error (List (Option Record)) × Session → Prop where
  /-- Some part cannot be sent, and nothing is. -/
  | unprepared {error : Error} (hfails : writes.mapM client.prepareWrite = .error error) :
    TransactSends client writes session (.error error, session)
  /-- No part writes anything, and the store is not called. -/
  | idle {prepared : List PreparedWrite}
    (hprepared : List.Forall₂ (TransactWrite.Becomes client) writes prepared)
    (hnone : prepared.filterMap PreparedWrite.action = []) :
    TransactSends client writes session (.ok (prepared.map PreparedWrite.record), session)
  /-- The tables cannot be waited for. -/
  | unready {prepared : List PreparedWrite} {error : Error} {last : Session}
    (hprepared : List.Forall₂ (TransactWrite.Becomes client) writes prepared)
    (hsome : prepared.filterMap PreparedWrite.action ≠ [])
    (hdescribed : session.store.Described last.store) :
    TransactSends client writes session (.error error, last)
  /-- The store makes the actions of all parts that have one, in their order. -/
  | sent {prepared : List PreparedWrite} {between : Store} {outcome : Except Error Unit}
    {last : Session} (hprepared : List.Forall₂ (TransactWrite.Becomes client) writes prepared)
    (hsome : prepared.filterMap PreparedWrite.action ≠ [])
    (hdescribed : session.store.Described between)
    (hstore : (Store.transactWrite ((prepared.filterMap PreparedWrite.action).map some)).run.run
      between = (outcome, last.store)) :
    TransactSends client writes session
      (outcome.map fun _ => prepared.map PreparedWrite.record, last)

theorem transactSends_transactWrite (client : Client) (writes : List TransactWrite)
    (session : Session) :
    client.TransactSends writes session ((client.transactWrite writes).run.run session) := by
  unfold transactWrite
  cases hprepare : writes.mapM client.prepareWrite with
  | error error =>
    rw [run_bind_of_error (run_except _ _)]
    exact .unprepared hprepare
  | ok prepared =>
    have hbecomes : List.Forall₂ (TransactWrite.Becomes client) writes prepared :=
      (mapM_ok hprepare).imp fun _ _ hone => TransactWrite.becomes_of_prepareWrite hone
    rw [run_bind_of_ok (run_except _ _)]
    by_cases hnone : prepared.filterMap PreparedWrite.action = []
    · rw [hnone]
      exact .idle hbecomes hnone
    · have hsends : (!(prepared.filterMap PreparedWrite.action).isEmpty) = true := by
        simpa using hnone
      rw [if_pos hsends]
      rcases hacquire : (client.acquireAll .write (writes.map TransactWrite.table)).run.run session with
        ⟨outcome, between⟩
      have hdescribed : session.store.Described between.store := by
        have hpreserved := Session.described_acquireAll client.config.limits .write
          (writes.map TransactWrite.table) session (.refl session.store)
        have hlast : ((Session.acquireAll client.config.limits .write
            (writes.map TransactWrite.table)).run.run session).2 = between :=
          congrArg Prod.snd hacquire
        rw [hlast] at hpreserved
        exact hpreserved
      cases outcome with
      | error error =>
        rw [run_bind_of_error hacquire]
        exact .unready hbecomes hnone hdescribed
      | ok done =>
        rw [run_bind_of_ok hacquire]
        obtain ⟨outcome, last, hcall, hstore⟩ : ∃ (outcome : Except Error Unit) (last : Session),
            (Session.call (Store.transactWrite ((prepared.filterMap PreparedWrite.action).map
              some))).run.run between = (outcome, last) ∧
            (Store.transactWrite ((prepared.filterMap PreparedWrite.action).map some)).run.run
              between.store = (outcome, last.store) := ⟨_, _, rfl, rfl⟩
        cases outcome with
        | error error =>
          rw [run_bind_of_error hcall]
          exact .sent hbecomes hnone hdescribed hstore
        | ok made =>
          rw [run_bind_of_ok hcall]
          exact .sent hbecomes hnone hdescribed hstore

end Client

/-- Transactions are all or nothing, and a client is answered part by part. -/
theorem transactions_all_or_nothing :
    (∀ actions store,
      Store.TransactEnds actions store ((Store.transactWrite actions).run.run store)) ∧
    ∀ client writes session,
      Client.TransactSends client writes session ((client.transactWrite writes).run.run session) :=
  ⟨Store.transactEnds_transactWrite, Client.transactSends_transactWrite⟩

end RecordStore
