import RecordStore.Client.Basic
import RecordStore.Proofs.Store.Table

/-!
# Calls within sessions

Waiting for capacity at most describes tables. A call for one key then answers as the store does,
with errors that know the key, and leaves the store as the call left it.
-/

namespace RecordStore

/-! ### Describing tables -/

/-- The later store holds what the earlier one held, and was only asked to describe tables since. -/
structure Store.Described (store later : Store) : Prop where
  tables : later.tables = store.tables
  rounds : later.unprocessedRounds = store.unprocessedRounds
  calls : ∃ described, later.calls = store.calls ++ described ∧
    ∀ call ∈ described, call.operation = .describeTable

namespace Store

variable {store between later : Store}

theorem Described.refl (store : Store) : store.Described store :=
  ⟨rfl, rfl, [], (List.append_nil _).symm, by simp⟩

theorem Described.trans (hfirst : store.Described between) (hsecond : between.Described later) :
    store.Described later := by
  obtain ⟨first, hfirstCalls, hfirstAll⟩ := hfirst.calls
  obtain ⟨second, hsecondCalls, hsecondAll⟩ := hsecond.calls
  refine ⟨hsecond.tables.trans hfirst.tables, hsecond.rounds.trans hfirst.rounds, first ++ second,
    ?_, ?_⟩
  · rw [hsecondCalls, hfirstCalls, List.append_assoc]
  · intro call hmem
    exact (List.mem_append.mp hmem).elim (hfirstAll call) (hsecondAll call)

theorem Described.table?_eq (hdescribed : store.Described later) (name : String) :
    later.table? name = store.table? name := by
  rw [table?, table?, hdescribed.tables]

/-- Nothing but descriptions of tables was recorded. -/
theorem Described.filter_calls (hdescribed : store.Described later) {keep : Call → Bool}
    (hkeep : ∀ call : Call, call.operation = .describeTable → keep call = false) :
    later.calls.filter keep = store.calls.filter keep := by
  obtain ⟨described, hcalls, hall⟩ := hdescribed.calls
  have hnone : described.filter keep = [] := by
    rw [List.filter_eq_nil_iff]
    intro call hmem
    rw [hkeep call (hall call hmem)]
    exact Bool.false_ne_true
  rw [hcalls, List.filter_append, hnone, List.append_nil]

theorem run_describeTable {name : String} {stored : StoredTable}
    (htable : store.table? name = some stored) :
    ∃ details later, (describeTable name).run.run store = (.ok details, later) ∧
      store.Described later := by
  have hrecord : (record .describeTable name 0).run.run store =
      (.ok (), { store with calls := store.calls ++ [⟨.describeTable, name, 0⟩] }) := rfl
  have hread : (requireTable name (.ofTable name)).run.run
      { store with calls := store.calls ++ [⟨.describeTable, name, 0⟩] } =
      (.ok stored, { store with calls := store.calls ++ [⟨.describeTable, name, 0⟩] }) :=
    run_requireTable _ htable
  refine ⟨⟨name, stored.units, stored.indexes.map fun index => (index.1, stored.units)⟩,
    { store with calls := store.calls ++ [⟨.describeTable, name, 0⟩] }, ?_,
    rfl, rfl, [⟨.describeTable, name, 0⟩], rfl, by simp⟩
  rw [describeTable, run_bind_of_ok hrecord, run_bind_of_ok hread]
  rfl

end Store

/-! ### Waiting for capacity -/

namespace Session

variable {session later : Session} {throughput : Throughput} {stored : StoredTable}

theorem run_get (session : Session) :
    (MonadState.get : SessionCall Session).run.run session = (.ok session, session) := rfl

theorem run_sleep (duration : Nat) (session : Session) :
    ∃ later, (sleep duration).run.run session = (.ok (), later) ∧ later.store = session.store := by
  unfold sleep
  split
  · exact ⟨session, rfl, rfl⟩
  · exact ⟨_, rfl, rfl⟩

theorem run_takePermits (throughput : Throughput) (session : Session) :
    ∃ later, (takePermits throughput).run.run session = (.ok (), later) ∧
      later.store = session.store := by
  unfold takePermits
  rw [run_bind_of_ok (run_get session)]
  split
  · exact run_sleep _ _
  · exact ⟨session, rfl, rfl⟩

theorem run_call_eq {α : Type} {storeCall : StoreCall α} {outcome : Except Error α} {left : Store}
    (hcall : storeCall.run.run session.store = (outcome, left)) :
    (call storeCall).run.run session = (outcome, { session with store := left }) := by
  change ((storeCall.run.run session.store).1,
    { session with store := (storeCall.run.run session.store).2 }) = _
  rw [hcall]

theorem run_ensureLimiter (limits : RateLimits)
    (htable : session.store.table? throughput.table = some stored) :
    ∃ later, (ensureLimiter limits throughput).run.run session = (.ok (), later) ∧
      session.store.Described later.store := by
  obtain ⟨details, described, hdescribe, hdescribed⟩ := Store.run_describeTable htable
  have hcall : (call (Store.describeTable throughput.table)).run.run session =
      (.ok details, { session with store := described }) := run_call_eq hdescribe
  unfold ensureLimiter
  rw [run_bind_of_ok (run_get session)]
  split
  · have hunits : (provisionedUnits throughput).run.run session =
        (.ok ((throughput.index.bind (Entries.find? details.indexes)).getD details.units),
          { session with store := described }) := by
      rw [provisionedUnits, run_bind_of_ok hcall]
      rfl
    rw [run_bind_of_ok hunits]
    exact ⟨_, rfl, hdescribed⟩
  · exact ⟨session, rfl, .refl _⟩

/-- A call on a table that is there may always be made in the end. -/
theorem run_acquire (limits : RateLimits)
    (htable : session.store.table? throughput.table = some stored) :
    ∃ later, (acquire limits throughput).run.run session = (.ok (), later) ∧
      session.store.Described later.store := by
  unfold acquire
  split
  · obtain ⟨between, hensure, hdescribed⟩ := run_ensureLimiter limits htable
    obtain ⟨later, htake, hstore⟩ := run_takePermits throughput between
    refine ⟨later, ?_, by rw [hstore]; exact hdescribed⟩
    rw [run_bind_of_ok hensure, htake]
  · exact ⟨session, rfl, .refl _⟩

/-- Calls on several tables that are there may be made in the end. -/
theorem run_acquireAll (limits : RateLimits) (mode : AccessMode) {names : List String}
    (htables : ∀ name ∈ names, ∃ stored, session.store.table? name = some stored) :
    ∃ later, (acquireAll limits mode names).run.run session = (.ok (), later) ∧
      session.store.Described later.store := by
  have heach : ∀ waiting : List String, ∀ session : Session,
      (∀ name ∈ waiting, ∃ stored, session.store.table? name = some stored) →
      ∃ later, (waiting.forM fun name => acquire limits ⟨name, none, mode⟩).run.run session =
          (.ok (), later) ∧ session.store.Described later.store := by
    intro waiting
    induction waiting with
    | nil => exact fun session _ => ⟨session, rfl, .refl _⟩
    | cons name rest ih =>
      intro session hthere
      obtain ⟨stored, htable⟩ := hthere name List.mem_cons_self
      obtain ⟨between, hfirst, hdescribed⟩ := @run_acquire session ⟨name, none, mode⟩ stored limits
        htable
      obtain ⟨later, hrest, hafter⟩ := ih between fun other hmem => by
        rw [hdescribed.table?_eq]
        exact hthere other (List.mem_cons_of_mem _ hmem)
      refine ⟨later, ?_, hdescribed.trans hafter⟩
      change (acquire limits ⟨name, none, mode⟩ >>= fun _ =>
        rest.forM fun name => acquire limits ⟨name, none, mode⟩).run.run session = _
      rw [run_bind_of_ok hfirst, hrest]
  exact heach _ session fun name hmem => htables name (List.mem_eraseDups.mp hmem)

section Described

variable {base : Store}

theorem described_describeTable (name : String) :
    Preserves (fun later : Session => base.Described later.store) (call (Store.describeTable name)) := by
  have hrecord : Preserves (fun store : Store => base.Described store)
      (Store.record .describeTable name 0) := by
    apply Preserves.modify
    intro store hstore
    exact hstore.trans ⟨rfl, rfl, [⟨.describeTable, name, 0⟩], rfl, by simp⟩
  have hdescribe : Preserves (fun store : Store => base.Described store)
      (Store.describeTable name) := by
    refine hrecord.bind fun _ => Preserves.bind (Preserves.get.bind fun store => ?_) fun _ => .pure _
    cases store.table? name with
    | some table => exact .pure table
    | none => exact .throw _
  exact fun later hlater => hdescribe later.store hlater

theorem described_ensureLimiter (limits : RateLimits) (throughput : Throughput) :
    Preserves (fun later : Session => base.Described later.store)
      (ensureLimiter limits throughput) := by
  refine Preserves.get.bind fun current => ?_
  split
  · have hunits : Preserves (fun later : Session => base.Described later.store)
        (provisionedUnits throughput) := (described_describeTable _).bind fun _ => .pure _
    exact hunits.bind fun _ => .modify fun _ hlater => hlater
  · exact .pure _

theorem described_takePermits (throughput : Throughput) :
    Preserves (fun later : Session => base.Described later.store) (takePermits throughput) := by
  refine Preserves.get_bind fun current hcurrent => ?_
  cases current.limiter? throughput with
  | none => exact .pure _
  | some limiter =>
    refine Preserves.bind (fun _ _ => hcurrent) fun _ => ?_
    unfold sleep
    split
    · exact .pure _
    · exact .modify fun _ hlater => hlater

theorem described_acquire (limits : RateLimits) (throughput : Throughput) :
    Preserves (fun later : Session => base.Described later.store) (acquire limits throughput) := by
  unfold acquire
  split
  · exact (described_ensureLimiter _ _).bind fun _ => described_takePermits _
  · exact .pure _

/-- Whatever comes of waiting for tables, it at most describes them. -/
theorem described_acquireAll (limits : RateLimits) (mode : AccessMode) (names : List String) :
    Preserves (fun later : Session => base.Described later.store)
      (acquireAll limits mode names) :=
  .forM fun _ => described_acquire _ _

end Described

theorem run_acquire_unlimited {limits : RateLimits} (hunlimited : limits.enabled = false)
    (throughput : Throughput) (session : Session) :
    (acquire limits throughput).run.run session = (.ok (), session) := by
  unfold acquire
  rw [hunlimited]
  rfl

theorem run_recordConsumed (throughput : Throughput) (units : Option Float) (session : Session) :
    ∃ later, (recordConsumed throughput units).run.run session = (.ok (), later) ∧
      later.store = session.store := by
  refine ⟨_, rfl, ?_⟩
  dsimp only
  split <;> rfl

theorem run_recordTable (mode : AccessMode) (capacity : ConsumedCapacity) (session : Session) :
    ∃ later, (match capacity.table with
      | some table => recordConsumed ⟨table, none, mode⟩ capacity.units
      | none => pure ()).run.run session = (.ok (), later) ∧ later.store = session.store := by
  cases capacity.table with
  | none => exact ⟨session, rfl, rfl⟩
  | some table => exact run_recordConsumed _ _ session

theorem run_recordAll (mode : AccessMode) (capacities : List ConsumedCapacity)
    (session : Session) : ∃ later, (recordAll mode capacities).run.run session = (.ok (), later) ∧
      later.store = session.store := by
  induction capacities generalizing session with
  | nil => exact ⟨session, rfl, rfl⟩
  | cons capacity rest ih =>
    obtain ⟨between, hfirst, hbetween⟩ := run_recordTable mode capacity session
    obtain ⟨later, hrest, hlater⟩ := ih between
    refine ⟨later, ?_, hlater.trans hbetween⟩
    unfold recordAll at hrest ⊢
    rw [← hrest]
    exact run_bind_of_ok hfirst

/-! ### What sessions preserve -/

section Invariants

variable {invariant : Store → Prop}

/-- What outlasts that tables are described outlasts what at most describes them. -/
theorem preserves_of_described {α : Type} {computation : SessionCall α}
    (hinvariant : ∀ {store later : Store}, store.Described later → invariant store → invariant later)
    (hdescribed : ∀ base : Store,
      Preserves (fun later : Session => base.Described later.store) computation) :
    Preserves (fun session : Session => invariant session.store) computation :=
  fun session hstore => hinvariant (hdescribed session.store session (.refl _)) hstore

theorem preserves_recordConsumed (throughput : Throughput) (units : Option Float) :
    Preserves (fun session : Session => invariant session.store)
      (recordConsumed throughput units) := by
  refine .modify fun session hstore => ?_
  split
  · exact hstore
  · exact hstore

theorem preserves_recordAll (mode : AccessMode) (capacities : List ConsumedCapacity) :
    Preserves (fun session : Session => invariant session.store) (recordAll mode capacities) := by
  refine .forM fun capacity => ?_
  cases capacity.table with
  | none => exact .pure _
  | some table => exact preserves_recordConsumed _ _

theorem preserves_sleep (duration : Nat) :
    Preserves (fun session : Session => invariant session.store) (sleep duration) := by
  unfold sleep
  split
  · exact .pure _
  · exact .modify fun _ hstore => hstore

theorem yields_call {α : Type} {property : α → Prop} {storeCall : StoreCall α}
    (hcall : Yields invariant property storeCall) :
    Yields (fun session : Session => invariant session.store) property (call storeCall) :=
  fun session hstore => hcall session.store hstore

theorem preserves_call {α : Type} {storeCall : StoreCall α}
    (hcall : Preserves invariant storeCall) :
    Preserves (fun session : Session => invariant session.store) (call storeCall) :=
  (yields_call (.of_preserves hcall)).preserves

end Invariants

end Session

namespace Client

variable {client : Client} {invariant : Store → Prop}

theorem preserves_awaitRetry (attempt remaining : Nat) :
    Preserves (fun session : Session => invariant session.store)
      (client.awaitRetry attempt remaining) := by
  unfold awaitRetry
  split
  · exact Session.preserves_sleep _
  · exact .throw _

theorem yields_callWithKey {throughput : Throughput} {key : Item} {storeCall : StoreCall ItemAnswer}
    {property : Item → Prop}
    (hinvariant : ∀ {store later : Store}, store.Described later → invariant store → invariant later)
    (hcall : Yields invariant (fun answer => ∀ item, answer.item = some item → property item)
      storeCall) :
    Yields (fun session : Session => invariant session.store)
      (fun found => ∀ item, found = some item → property item)
      (client.callWithKey throughput key storeCall) := by
  have hacquire : Preserves (fun session : Session => invariant session.store)
      (client.acquire throughput) :=
    Session.preserves_of_described hinvariant fun _ => Session.described_acquire _ _
  unfold callWithKey
  refine (Yields.of_preserves hacquire).bind fun _ _ => ?_
  refine ((Session.yields_call hcall).tryCatch fun _ => .throw _).bind fun answer hanswer => ?_
  exact (Yields.of_preserves (Session.preserves_recordConsumed _ _)).bind fun _ _ => .pure hanswer

theorem preserves_callWithKey {throughput : Throughput} {key : Item}
    {storeCall : StoreCall ItemAnswer}
    (hinvariant : ∀ {store later : Store}, store.Described later → invariant store → invariant later)
    (hcall : Preserves invariant storeCall) :
    Preserves (fun session : Session => invariant session.store)
      (client.callWithKey throughput key storeCall) := by
  have hyields : Yields invariant (fun answer : ItemAnswer => ∀ item, answer.item = some item → True)
      storeCall := (Yields.of_preserves hcall).mono fun _ _ _ _ => trivial
  exact (yields_callWithKey hinvariant hyields).preserves

end Client

/-! ### Calls for one key -/

namespace Client

/-- The throughput allows a call, once it was waited for. -/
def Ready (client : Client) (throughput : Throughput) (session : Session) : Prop :=
  ∃ between, (client.acquire throughput).run.run session = (.ok (), between) ∧
    session.store.Described between.store

variable {client : Client} {throughput : Throughput} {key : Item} {session between : Session}

theorem ready_of_table {stored : StoredTable}
    (htable : session.store.table? throughput.table = some stored) :
    client.Ready throughput session :=
  Session.run_acquire client.config.limits htable

theorem ready_of_unlimited (hunlimited : client.config.limits.enabled = false)
    (throughput : Throughput) (session : Session) : client.Ready throughput session :=
  ⟨session, Session.run_acquire_unlimited hunlimited throughput session, .refl _⟩

/-- What a call for one key answers where the store answers `outcome`. -/
def answerFor (key : Item) (outcome : Except Error ItemAnswer) : Except Error (Option Item) :=
  (outcome.map ItemAnswer.item).mapError fun error => error.withKey key

theorem run_callWithKey {storeCall : StoreCall ItemAnswer}
    (hacquire : (client.acquire throughput).run.run session = (.ok (), between)) :
    ∃ later, (client.callWithKey throughput key storeCall).run.run session =
        (answerFor key (storeCall.run.run between.store).1, later) ∧
      later.store = (storeCall.run.run between.store).2 := by
  rcases hcall : storeCall.run.run between.store with ⟨error | answer, left⟩
  · have hfailed : (tryCatch (Session.call storeCall) fun error =>
        throw (error.withKey key)).run.run between =
        (.error (error.withKey key), { between with store := left }) := by
      rw [run_tryCatch_of_error (Session.run_call_eq hcall)]
      rfl
    refine ⟨{ between with store := left }, ?_, rfl⟩
    rw [callWithKey, run_bind_of_ok hacquire, run_bind_of_error hfailed]
    rfl
  · have hanswered : (tryCatch (Session.call storeCall) fun error =>
        throw (error.withKey key)).run.run between =
        (.ok answer, { between with store := left }) :=
      run_tryCatch_of_ok (Session.run_call_eq hcall)
    obtain ⟨later, hrecord, hstore⟩ := Session.run_recordConsumed throughput
      (answer.capacity.bind ConsumedCapacity.units) { between with store := left }
    refine ⟨later, ?_, hstore⟩
    rw [callWithKey, run_bind_of_ok hacquire, run_bind_of_ok hanswered, run_bind_of_ok hrecord]
    rfl

section Writing

variable {α : Type} {operation : Operation} {name : String} {context : RequestContext}
  {step : StoredTable → Except Expression.Fault (Outcome (StoredTable × α))}
  {answer : α → ItemAnswer}

/-- What can come of a call that writes to a table under a condition: the step is made and answered,
the condition does not hold, or the call is refused. Only in the first case a table changes. -/
inductive Wrote (name : String)
    (step : StoredTable → Except Expression.Fault (Outcome (StoredTable × α)))
    (answer : α → ItemAnswer) (store later : Store) : Except Error (Option Item) → Prop where
  | applied {stored left : StoredTable} {result : α} (htable : store.table? name = some stored)
    (hstep : step stored = .ok (.applied (left, result)))
    (htables : later.tables = (store.setTable name left).tables) :
    Wrote name step answer store later (.ok (answer result).item)
  | rejected {stored : StoredTable} {context : RequestContext}
    (htable : store.table? name = some stored) (hstep : step stored = .ok .rejected)
    (htables : later.tables = store.tables) :
    Wrote name step answer store later (.error (.writeConflict context))
  | refused {error : Error} (hconflict : error.isWriteConflict = false)
    (hstep : ∀ stored, store.table? name = some stored → ∃ fault, step stored = .error fault)
    (htables : later.tables = store.tables) :
    Wrote name step answer store later (.error error)

theorem wrote_callWithKey (hready : client.Ready ⟨name, none, .write⟩ session) (key : Item) :
    ∃ outcome later, (client.callWithKey ⟨name, none, .write⟩ key
        (Store.conditionalCall operation name context step answer)).run.run session =
          (outcome, later) ∧ Wrote name step answer session.store later.store outcome := by
  obtain ⟨between, hacquire, hdescribed⟩ := hready
  obtain ⟨later, hrun, hstore⟩ := @run_callWithKey client _ key session between
    (Store.conditionalCall operation name context step answer) hacquire
  refine ⟨_, later, hrun, ?_⟩
  have htable := hdescribed.table?_eq name
  cases hfind : session.store.table? name with
  | none =>
    have hcall := @Store.run_conditionalCall_of_missing α operation name context step answer _
      (htable.trans hfind)
    rw [hcall] at hstore ⊢
    refine .refused rfl (fun stored hstored => ?_) ?_
    · rw [hfind] at hstored
      cases hstored
    · rw [hstore]
      exact hdescribed.tables
  | some stored =>
    have hcall := @Store.run_conditionalCall α operation name context step answer _ stored
      (htable.trans hfind)
    cases hstep : step stored with
    | error fault =>
      rw [hstep] at hcall
      rw [hcall] at hstore ⊢
      refine .refused rfl (fun other hother => ?_) ?_
      · rw [hfind] at hother
        cases hother
        exact ⟨fault, hstep⟩
      · rw [hstore]
        exact hdescribed.tables
    | ok outcome =>
      cases outcome with
      | applied result =>
        rw [hstep] at hcall
        rw [hcall] at hstore ⊢
        refine .applied hfind hstep ?_
        rw [hstore]
        exact congrArg (Entries.put · name result.1) hdescribed.tables
      | rejected =>
        rw [hstep] at hcall
        rw [hcall] at hstore ⊢
        refine .rejected hfind hstep ?_
        rw [hstore]
        exact hdescribed.tables

theorem wrote_putItem (request : PutRequest)
    (hready : client.Ready ⟨request.table, none, .write⟩ session) (key : Item) :
    ∃ outcome later, (client.callWithKey ⟨request.table, none, .write⟩ key
        (Store.putItem request)).run.run session = (outcome, later) ∧
      Wrote request.table
        (fun table => table.put request.item request.guard.condition request.guard.bindings)
        (fun old => ⟨request.options.returned.select old none,
          Store.capacity request.options.reportsCapacity request.table 1⟩)
        session.store later.store outcome := by
  rw [Store.putItem_eq]
  exact wrote_callWithKey hready key

theorem wrote_updateItem {request : UpdateRequest} {expression : String}
    (hexpression : request.update = some expression)
    (hready : client.Ready ⟨request.table, none, .write⟩ session) (key : Item) :
    ∃ outcome later, (client.callWithKey ⟨request.table, none, .write⟩ key
        (Store.updateItem request)).run.run session = (outcome, later) ∧
      Wrote request.table
        (fun table => table.update (request.key.getD []) expression request.guard.condition
          request.guard.bindings)
        (fun updated => ⟨request.options.returned.select updated.old (some updated.new),
          Store.capacity request.options.reportsCapacity request.table 1⟩)
        session.store later.store outcome := by
  rw [Store.updateItem_eq hexpression]
  exact wrote_callWithKey hready key

theorem wrote_deleteItem (request : DeleteRequest)
    (hready : client.Ready ⟨request.table, none, .write⟩ session) (key : Item) :
    ∃ outcome later, (client.callWithKey ⟨request.table, none, .write⟩ key
        (Store.deleteItem request)).run.run session = (outcome, later) ∧
      Wrote request.table
        (fun table => table.delete (request.key.getD []) request.guard.condition
          request.guard.bindings)
        (fun old => ⟨request.options.returned.select old none,
          Store.capacity request.options.reportsCapacity request.table 1⟩)
        session.store later.store outcome := by
  rw [Store.deleteItem_eq]
  exact wrote_callWithKey hready key

end Writing

end Client

end RecordStore
