import RecordStore.Proofs.Store.FiniteMap

/-!
# Transactions of a store

The actions of a transaction run one after another on what those before them have left. What they
leave is kept only if the condition of every one of them held at its turn.
-/

namespace RecordStore.Store

variable {context : RequestContext} {store : Store}

/-! ### Running actions -/

/-- Actions run in order: each is made on what those before it left when its condition holds there,
and is skipped when the condition does not hold. -/
inductive ActionsRun (context : RequestContext) :
    Store → List (Option TransactAction) → List Bool → Store → Prop where
  | nil (store : Store) : ActionsRun context store [] [] store
  | applied {store last : Store} {action : TransactAction} {rest : List (Option TransactAction)}
    {held : List Bool} {table : StoredTable} {key : Item} {left : Option Item}
    (htable : store.table? (action.keyedWrite context).table = some table)
    (hbinds : (action.keyedWrite context).Binds table key left)
    (hrest : ActionsRun context
      (store.setTable (action.keyedWrite context).table (table.bind key left)) rest held last) :
    ActionsRun context store (some action :: rest) (true :: held) last
  | skipped {store last : Store} {action : TransactAction} {rest : List (Option TransactAction)}
    {held : List Bool} {table : StoredTable}
    (htable : store.table? (action.keyedWrite context).table = some table)
    (hdenied : (action.keyedWrite context).Denied table)
    (hrest : ActionsRun context store rest held last) :
    ActionsRun context store (some action :: rest) (false :: held) last

/-- An action neither is made nor has a condition that does not hold. -/
inductive ActionRefused (context : RequestContext) (store : Store) :
    Option TransactAction → Error → Prop where
  | absent : ActionRefused context store none (.invalidRequest .noAction context)
  | missing {action : TransactAction}
    (hmissing : store.table? (action.keyedWrite context).table = none) :
    ActionRefused context store (some action)
      (.missingTable (action.keyedWrite context).table (action.keyedWrite context).context)
  | faulty {action : TransactAction} {table : StoredTable} {fault : Expression.Fault}
    (htable : store.table? (action.keyedWrite context).table = some table)
    (hfaults : (action.keyedWrite context).Faults table fault) :
    ActionRefused context store (some action)
      (.invalidRequest fault (action.keyedWrite context).context)

/-- Some action is refused after those before it have run. -/
def RefusedAmong (context : RequestContext) (store : Store)
    (actions : List (Option TransactAction)) (error : Error) : Prop :=
  ∃ before action rest held between, actions = before ++ action :: rest ∧
    ActionsRun context store before held between ∧ ActionRefused context between action error

theorem RefusedAmong.applied {action : TransactAction} {rest : List (Option TransactAction)}
    {table : StoredTable} {key : Item} {left : Option Item} {error : Error}
    (htable : store.table? (action.keyedWrite context).table = some table)
    (hbinds : (action.keyedWrite context).Binds table key left)
    (hrefused : RefusedAmong context
      (store.setTable (action.keyedWrite context).table (table.bind key left)) rest error) :
    RefusedAmong context store (some action :: rest) error := by
  obtain ⟨before, stopped, after, held, between, rfl, hruns, herror⟩ := hrefused
  exact ⟨some action :: before, stopped, after, true :: held, between, rfl,
    .applied htable hbinds hruns, herror⟩

theorem RefusedAmong.skipped {action : TransactAction} {rest : List (Option TransactAction)}
    {table : StoredTable} {error : Error}
    (htable : store.table? (action.keyedWrite context).table = some table)
    (hdenied : (action.keyedWrite context).Denied table)
    (hrefused : RefusedAmong context store rest error) :
    RefusedAmong context store (some action :: rest) error := by
  obtain ⟨before, stopped, after, held, between, rfl, hruns, herror⟩ := hrefused
  exact ⟨some action :: before, stopped, after, false :: held, between, rfl,
    .skipped htable hdenied hruns, herror⟩

theorem ActionsRun.length_eq {actions : List (Option TransactAction)} {held : List Bool}
    {last : Store} (hruns : ActionsRun context store actions held last) :
    held.length = actions.length := by
  induction hruns with
  | nil => rfl
  | applied _ _ _ ih => simp [ih]
  | skipped _ _ _ ih => simp [ih]

theorem tables_setTable_congr {earlier : Store} (hsame : store.tables = earlier.tables)
    (name : String) (table : StoredTable) :
    (store.setTable name table).tables = (earlier.setTable name table).tables :=
  congrArg (Entries.put · name table) hsame

/-- Only the tables of a store matter to the actions that run on it. -/
theorem ActionsRun.of_tables {earlier last : Store} {actions : List (Option TransactAction)}
    {held : List Bool} (hruns : ActionsRun context store actions held last)
    (hsame : store.tables = earlier.tables) :
    ∃ final, ActionsRun context earlier actions held final ∧ last.tables = final.tables := by
  induction hruns generalizing earlier with
  | nil store => exact ⟨earlier, .nil earlier, hsame⟩
  | applied htable hbinds _ ih =>
    obtain ⟨final, hruns, hfinal⟩ := ih (tables_setTable_congr hsame _ _)
    exact ⟨final, .applied ((table?_congr hsame _).symm.trans htable) hbinds hruns, hfinal⟩
  | skipped htable hdenied _ ih =>
    obtain ⟨final, hruns, hfinal⟩ := ih hsame
    exact ⟨final, .skipped ((table?_congr hsame _).symm.trans htable) hdenied hruns, hfinal⟩

theorem RefusedAmong.of_tables {earlier : Store} {actions : List (Option TransactAction)}
    {error : Error} (hrefused : RefusedAmong context store actions error)
    (hsame : store.tables = earlier.tables) : RefusedAmong context earlier actions error := by
  obtain ⟨before, action, rest, held, between, hactions, hruns, herror⟩ := hrefused
  obtain ⟨final, hruns, hfinal⟩ := hruns.of_tables hsame
  refine ⟨before, action, rest, held, final, hactions, hruns, ?_⟩
  cases herror with
  | absent => exact .absent
  | missing hmissing => exact .missing ((table?_congr hfinal _).symm.trans hmissing)
  | faulty htable hfaults => exact .faulty ((table?_congr hfinal _).symm.trans htable) hfaults

/-- What trying actions comes to. -/
inductive ActionsTried (context : RequestContext) (store : Store)
    (actions : List (Option TransactAction)) : Except Error (List Bool) × Store → Prop where
  | ran {held : List Bool} {last : Store} (hruns : ActionsRun context store actions held last) :
    ActionsTried context store actions (.ok held, last)
  | refused {error : Error} {last : Store} (hrefused : RefusedAmong context store actions error) :
    ActionsTried context store actions (.error error, last)

theorem tried_mapM (context : RequestContext) (store : Store)
    (actions : List (Option TransactAction)) :
    ActionsTried context store actions ((actions.mapM (tryAction context)).run.run store) := by
  induction actions generalizing store with
  | nil => exact .ran (.nil store)
  | cons action rest ih =>
    rw [List.mapM_cons]
    cases action with
    | none => exact .refused ⟨[], none, rest, [], store, rfl, .nil store, .absent⟩
    | some action =>
      have hfirst := runs_tryAction store context action
      rcases hrun : (tryAction context (some action)).run.run store with ⟨outcome, between⟩
      rw [hrun] at hfirst
      have hrest := ih between
      rcases hothers : (rest.mapM (tryAction context)).run.run between with ⟨others, last⟩
      rw [hothers] at hrest
      cases hfirst with
      | missing hmissing =>
        rw [run_bind_of_error hrun]
        exact .refused ⟨[], some action, rest, [], store, rfl, .nil store, .missing hmissing⟩
      | refused htable hfaults =>
        rw [run_bind_of_error hrun]
        exact .refused ⟨[], some action, rest, [], store, rfl, .nil store, .faulty htable hfaults⟩
      | applied htable hbinds =>
        rw [run_bind_of_ok hrun]
        cases hrest with
        | ran hruns =>
          rw [run_bind_of_ok hothers]
          exact .ran (.applied htable hbinds hruns)
        | refused hrefused =>
          rw [run_bind_of_error hothers]
          exact .refused (hrefused.applied htable hbinds)
      | rejected htable hdenied =>
        rw [run_bind_of_ok hrun]
        cases hrest with
        | ran hruns =>
          rw [run_bind_of_ok hothers]
          exact .ran (.skipped htable hdenied hruns)
        | refused hrefused =>
          rw [run_bind_of_error hothers]
          exact .refused (hrefused.skipped htable hdenied)

/-! ### Whole transactions -/

def transactContext (actions : List (Option TransactAction)) : RequestContext :=
  .ofTables (actions.filterMap fun action => action.map TransactAction.table)

/-- How a transaction ends. -/
inductive TransactEnds (actions : List (Option TransactAction)) (store : Store) :
    Except Error Unit × Store → Prop where
  /-- Every condition held at its turn, and the tables are as the actions left them. -/
  | committed {held : List Bool} {last later : Store}
    (hruns : ActionsRun (transactContext actions) store actions held last)
    (hall : ∀ holds ∈ held, holds = true) (htables : later.tables = last.tables) :
    TransactEnds actions store (.ok (), later)
  /-- Some condition did not hold at its turn; each action has its reason. -/
  | cancelled {held : List Bool} {last later : Store}
    (hruns : ActionsRun (transactContext actions) store actions held last)
    (hsome : false ∈ held) (htables : later.tables = store.tables) :
    TransactEnds actions store (.error (.transactionCancelled
      (held.map fun holds => if holds then "None" else "ConditionalCheckFailed")
      (transactContext actions)), later)
  /-- Some action could not be tried. -/
  | refused {error : Error} {later : Store}
    (hrefused : RefusedAmong (transactContext actions) store actions error)
    (htables : later.tables = store.tables) : TransactEnds actions store (.error error, later)

theorem transactEnds_transactWrite (actions : List (Option TransactAction)) (store : Store) :
    TransactEnds actions store ((transactWrite actions).run.run store) := by
  obtain ⟨noted, hnoted, htables⟩ : ∃ noted : Store,
      (record .transactWriteItems (transactContext actions).table actions.length).run.run store =
        (.ok (), noted) ∧ noted.tables = store.tables := ⟨_, rfl, rfl⟩
  have htried := tried_mapM (transactContext actions) noted actions
  rcases hrun : (actions.mapM (tryAction (transactContext actions))).run.run noted with
    ⟨outcome, last⟩
  rw [hrun] at htried
  have hwrite : (transactWrite actions).run.run store =
      (atomically (tryActions (transactContext actions) actions)).run.run noted :=
    run_bind_of_ok hnoted
  rw [hwrite]
  change TransactEnds actions store (atomically _ noted)
  unfold atomically
  cases htried with
  | refused hrefused =>
    have hfails : (tryActions (transactContext actions) actions).run.run noted = _ :=
      run_bind_of_error hrun
    rw [hfails]
    exact .refused (hrefused.of_tables htables) htables
  | @ran held _ hruns =>
    obtain ⟨final, hruns, hfinal⟩ := hruns.of_tables htables
    have hends : (tryActions (transactContext actions) actions).run.run noted = _ :=
      run_bind_of_ok hrun
    rw [hends]
    by_cases hall : held.all id = true
    · rw [hall]
      exact .committed hruns (by simpa using hall) hfinal
    · rw [(Bool.not_eq_true _).mp hall]
      refine .cancelled hruns ?_ htables
      simpa using hall

end RecordStore.Store
