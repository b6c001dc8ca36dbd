import RecordStore.Client.Write
import RecordStore.Proofs.Codec.Key
import RecordStore.Proofs.Locking.Revision
import RecordStore.Proofs.Update.Base
import RecordStore.Proofs.Update.Effect

/-!
# Writes of records that were read before

A client that read a record writes it back, changes it or deletes it. The request that it sends on a
table with optimistic locking carries a fence: the condition that the item is still at the revision
at which the record was read.
-/

namespace RecordStore

open Expression (Action Building Builder Clauses Compiled Edit)

/-- A request that writes one item. -/
inductive ItemWrite where
  | put (request : PutRequest)
  | update (request : UpdateRequest)
  | delete (request : DeleteRequest)

def ItemWrite.perform : ItemWrite → StoreCall ItemAnswer
  | put request => Store.putItem request
  | update request => Store.updateItem request
  | delete request => Store.deleteItem request

/-- What a client does with a record that it read. -/
inductive LockedWrite where
  /-- Saves the record whole, with locking on. -/
  | save (record : Record) (overwrite isMigrated : Bool)
  /-- Updates the record with changes, some of which may have failed. -/
  | update (record : Record) (changes : List FieldChange)
  | delete (record : Record) (condition : Option Condition)

namespace LockedWrite

def record : LockedWrite → Record
  | save record _ _ => record
  | update record _ => record
  | delete record _ => record

/-- The revision at which the record was read. -/
def observed (write : LockedWrite) : Int64 :=
  write.record.revision

def isDelete : LockedWrite → Bool
  | delete .. => true
  | _ => false

/-- The request that the client sends, none for an update that writes nothing. -/
def request? (table : TableSchema) : LockedWrite → Except Error (Option ItemWrite)
  | save record overwrite isMigrated => do
    let prepared ← PreparedPut.prepare table record ⟨overwrite, true⟩ isMigrated
    return some (.put ⟨table.name, prepared.item, prepared.compiled.guard, ⟨.nothing, true⟩⟩)
  | update record changes => do
    let update := (← Update.start table record).after table changes
    let compiled ← update.compile table
    return compiled.update.map fun expression =>
      .update ⟨table.name, some update.key, some expression, compiled.guard, ⟨.new, true⟩⟩
  | delete record condition => do
    let (key, guard) ←
      RecordDelete.prepare table { ← RecordDelete.ofRecord table record with condition }
    return some (.delete ⟨table.name, some key, guard, ⟨.old, true⟩⟩)

end LockedWrite

/-! ### Fences -/

/-- What the store tests for a request always includes that the item is at the observed revision. -/
def Guard.Fences (guard : Guard) (table : TableSchema) (observed : Int64) : Prop :=
  ∀ item, ∃ accepted, Expression.meets item guard.condition guard.bindings = .ok accepted ∧
    (accepted = true → table.revisionTest observed item = true)

variable {table : TableSchema} {observed : Int64}

theorem Expression.Builder.Reads.fences {builder : Builder} {clauses : Clauses}
    (hreads : builder.Reads clauses) (hasks : table.revisionTest observed ∈ clauses.conditions) :
    builder.compile.guard.Fences table observed := by
  intro item
  refine ⟨clauses.meets item, hreads.meets item, ?_⟩
  intro hmeets
  exact List.all_eq_true.mp hmeets _ hasks

theorem PreparedPut.adds_require (overwrite isMigrated : Bool)
    (hlocking : table.optimisticLocking = true) (hobserved : observed ≠ 0) :
    (PreparedPut.require table observed ⟨overwrite, true⟩ isMigrated).Adds fun _ added =>
      table.revisionTest observed ∈ added.conditions := by
  have hmigrated : Building.Adds (if isMigrated then
      Builder.requireAbsentOrLess [table.versionAttribute] (Codec.versionAttribute table.version)
      else pure ()) fun _ _ => True := by
    cases isMigrated with
    | true =>
      exact (Builder.adds_requireAbsentOrLess (List.cons_ne_nil _ _) _).mono fun _ _ _ => trivial
    | false => exact .pure trivial
  have hlocked : Building.Adds (table.requireRevision observed >>= fun _ => if isMigrated then
      Builder.requireAbsentOrLess [table.versionAttribute] (Codec.versionAttribute table.version)
      else pure ()) fun _ added => table.revisionTest observed ∈ added.conditions := by
    refine (table.adds_requireRevision hlocking hobserved).bind fun _ first hfirst =>
      hmigrated.mono fun _ others _ => ?_
    rw [hfirst]
    exact List.mem_cons_self
  cases overwrite with
  | true => exact hlocked
  | false =>
    exact (Builder.adds_requireAbsent (List.cons_ne_nil _ _)).bind fun _ first _ =>
      hlocked.mono fun _ others hasks => List.mem_append_right _ hasks

theorem RecordDelete.adds_require {delete : RecordDelete} (hlocking : table.optimisticLocking = true)
    (hexpected : delete.expectedRevision = some observed) (hobserved : observed ≠ 0) :
    (delete.require table).Adds fun _ added => table.revisionTest observed ∈ added.conditions := by
  have hcondition : (delete.condition.forM (Builder.requireCondition table)).Adds
      fun _ _ => True := by
    cases delete.condition with
    | none => exact .pure trivial
    | some condition =>
      exact (Builder.adds_requireCondition table condition).mono fun _ _ _ => trivial
  unfold RecordDelete.require
  rw [hexpected]
  refine hcondition.bind fun _ first _ =>
    (table.adds_requireRevision hlocking hobserved).mono fun _ added hadded => ?_
  rw [hadded]
  exact List.mem_append_right _ List.mem_cons_self

/-! ### Updates -/

/-- The clauses of an update: those of its changes, and as the last assignment the next revision. -/
structure Update.Advances (table : TableSchema) (observed : Int64) (clauses : Clauses) : Prop where
  fenced : table.revisionTest observed ∈ clauses.conditions
  actions : ∃ before after, clauses.actions =
    before ++ .set [table.revisionAttribute] (.value (Codec.revisionAttribute (observed + 1))) ::
      after ∧ ∀ action ∈ after, action.path.head? ≠ some table.revisionAttribute

theorem Update.adds_requireVersion :
    (Update.requireVersion table).Adds fun _ added => added.actions = [] := by
  unfold Update.requireVersion
  split
  · refine (Builder.adds_requireEqual (List.cons_ne_nil _ _) _).mono fun _ added hadded => ?_
    rw [hadded]
    rfl
  · refine (Builder.adds_requireAbsentOrLess (List.cons_ne_nil _ _) _).mono fun _ added hadded => ?_
    rw [hadded]
    rfl

theorem Update.adds_advanceRevision (hobserved : observed ≠ 0) :
    (Update.advanceRevision table observed).Adds fun _ added =>
      added = .ofSet (.set [table.revisionAttribute]
        (.value (Codec.revisionAttribute (observed + 1)))) ++
        .ofCondition (table.revisionTest observed) := by
  unfold Update.advanceRevision
  rw [if_pos hobserved]
  refine (Builder.adds_setAttribute (List.cons_ne_nil _ _) _).bind fun _ first hfirst =>
    (Builder.adds_requireEqual (List.cons_ne_nil _ _) _).mono fun _ others hothers => ?_
  rw [hfirst, hothers]
  rfl

/-- What an update adds to the clauses of its changes. -/
theorem Update.adds_counters (hobserved : observed ≠ 0) :
    Building.Adds (do
      Update.requireVersion table
      Update.advanceRevision table observed) fun _ added =>
      ∃ version : Clauses, version.actions = [] ∧
        added = version ++ (.ofSet (.set [table.revisionAttribute]
          (.value (Codec.revisionAttribute (observed + 1)))) ++
          .ofCondition (table.revisionTest observed)) :=
  Update.adds_requireVersion.bind fun _ version hversion =>
    (Update.adds_advanceRevision hobserved).mono fun _ added hadded =>
      ⟨version, hversion, by rw [hadded]⟩

/-- No change to a record touches its counters. -/
theorem ObjectUpdate.adds_compile (haccepted : table.Accepted) (update : ObjectUpdate) :
    (update.compile table).Adds fun _ added =>
      ∀ action ∈ added.actions, action.path.head? ≠ some table.versionAttribute ∧
        action.path.head? ≠ some table.revisionAttribute := by
  unfold ObjectUpdate.compile
  refine .bind_except fun type htype => ?_
  refine (FieldMutation.adds_compileFields table type update.base [] update.mutations).mono ?_
  intro _ added hadded action hmem
  obtain ⟨field, hfield, hpersist, edit, hedit⟩ :=
    FieldMutation.editsBelow_objectClauses update.mutations hadded action hmem
  obtain ⟨hversion, hrevision⟩ :=
    (haccepted.fields type (TableSchema.mem_of_requireType htype)).reserved field hfield hpersist
  rw [← hedit, Edit.path_action]
  exact ⟨fun hsame => hversion (Option.some.inj hsame), fun hsame => hrevision (Option.some.inj hsame)⟩

/-- Where only the counters advance the revision, that is the last that happens to it. -/
theorem Update.actions_append {user version test : Clauses} (hversion : version.actions = [])
    (htest : test.actions = [])
    (huser : ∀ action ∈ user.actions, action.path.head? ≠ some table.revisionAttribute) :
    ∃ before after, (user ++ (version ++ (.ofSet (.set [table.revisionAttribute]
        (.value (Codec.revisionAttribute (observed + 1)))) ++ test))).actions =
      before ++ .set [table.revisionAttribute] (.value (Codec.revisionAttribute (observed + 1))) ::
        after ∧ ∀ action ∈ after, action.path.head? ≠ some table.revisionAttribute := by
  simp only [Clauses.actions, List.append_eq_nil_iff] at hversion htest
  obtain ⟨hset, hremove, hadd, hdelete⟩ := hversion
  obtain ⟨htestSet, htestRemove, htestAdd, htestDelete⟩ := htest
  refine ⟨user.set, user.remove ++ (user.add ++ user.delete), ?_, ?_⟩
  · simp [Clauses.actions, Clauses.ofSet, Clauses.none, hset, hremove, hadd, hdelete, htestSet,
      htestRemove, htestAdd, htestDelete]
  · intro action hmem
    refine huser action (Clauses.mem_actions.mpr (.inr ?_))
    simpa [List.mem_append] using hmem

theorem Update.advances_append {user version : Clauses} (hversion : version.actions = [])
    (huser : ∀ action ∈ user.actions, action.path.head? ≠ some table.revisionAttribute) :
    Update.Advances table observed (user ++ (version ++
      (.ofSet (.set [table.revisionAttribute] (.value (Codec.revisionAttribute (observed + 1)))) ++
        .ofCondition (table.revisionTest observed)))) where
  fenced := by
    simp [Clauses.ofCondition]
  actions := Update.actions_append hversion rfl huser

/-- An update that writes something is read as its changes with what it asks of the counters. -/
theorem Update.reads_append {update : Update} {builder : Builder} {expression : String}
    {written property : Unit → Clauses → Prop} (hcompile : (update.object.compile table).Adds written)
    (hcounters : Building.Adds (do
      Update.requireVersion table
      if table.optimisticLocking then
        Update.advanceRevision table update.object.base.revision) property)
    (hrun : Builder.run "" (update.build table) = .ok ((), builder))
    (hwrites : builder.compile.update = some expression) :
    ∃ user added, builder.Reads (user ++ added) ∧ property () added ∧ written () user := by
  have hbuild : (update.build table).run.run (.empty "") = (.ok (), builder) := by
    unfold Builder.run at hrun
    split at hrun
    · cases hrun
      assumption
    · cases hrun
  obtain ⟨⟨⟩, between, hcompiled, hrest⟩ := run_bind_ok hbuild
  obtain ⟨user, huser, hbetween, _⟩ :=
    hcompile (Builder.reads_empty Expression.isStem_empty) hcompiled
  rw [Clauses.none_append] at hbetween
  have hget : (MonadState.get : Building Builder).run.run between = (.ok between, between) := rfl
  rw [run_bind_of_ok hget] at hrest
  cases hupdates : between.hasUpdates with
  | false =>
    rw [hupdates] at hrest
    obtain ⟨_, rfl⟩ := run_pure_ok hrest
    have hnone : user.actions = [] := by
      by_contra hne
      rw [← Ne, ← hbetween.hasUpdates, hupdates] at hne
      cases hne
    rw [hbetween.update_eq_none hnone] at hwrites
    cases hwrites
  | true =>
    rw [hupdates, if_pos rfl] at hrest
    obtain ⟨added, hadded, hbuilder, _⟩ := hcounters hbetween hrest
    exact ⟨user, added, hbuilder, hadded, huser⟩

/-- An update that writes something advances the revision that it requires. -/
theorem Update.reads_build {update : Update} {builder : Builder} {expression : String}
    (haccepted : table.Accepted) (hlocking : table.optimisticLocking = true)
    (hobserved : update.object.base.revision ≠ 0)
    (hrun : Builder.run "" (update.build table) = .ok ((), builder))
    (hwrites : builder.compile.update = some expression) :
    ∃ clauses, builder.Reads clauses ∧
      Update.Advances table update.object.base.revision clauses := by
  have hcounters := @Update.adds_counters table _ hobserved
  rw [← if_pos hlocking (t := Update.advanceRevision table update.object.base.revision)
    (e := pure ())] at hcounters
  obtain ⟨user, _, hreads, ⟨version, hversion, rfl⟩, huser⟩ :=
    Update.reads_append (ObjectUpdate.adds_compile haccepted _) hcounters hrun hwrites
  exact ⟨_, hreads, Update.advances_append hversion fun action hmem => (huser action hmem).2⟩

end RecordStore
