import RecordStore.Proofs.Batch.Encode
import RecordStore.Proofs.Client.Call

/-!
# Sent batches

A chunk is sent until nothing is left of it, unless the retry policy gives up before. Only rounds
that the store is told to throttle leave anything, so the chunks of a batch are sent once each after
them, and every table ends as if the writes to it were made one by one.
-/

namespace RecordStore

open Entries (under)
open Batch (Cut Grouped requestsFor byTable chunks)

/-! ### Calls for batches -/

namespace Store

variable {store later : Store} {groups : List (String × List BatchEntry)}

/-- The batch writes that the store was called for, in order. -/
def batchCalls (store : Store) : List Call :=
  store.calls.filter fun call => call.operation = .batchWriteItem

theorem Described.batchCalls_eq (hdescribed : store.Described later) :
    later.batchCalls = store.batchCalls :=
  hdescribed.filter_calls fun call hcall => by rw [hcall]; decide

/-- What one call for some groups makes of a store. -/
structure Round (groups : List (String × List BatchEntry)) (store later : Store) : Prop where
  calls : later.batchCalls = store.batchCalls ++ [batchCall groups]
  rounds : later.unprocessedRounds = store.unprocessedRounds - 1
  tables : TablesAfter (under (Batch.handled store.throttles groups)) store.tables later.tables

end Store

/-! ### Sending a chunk -/

namespace RetryPolicy

variable {policy : RetryPolicy} {attempt limit : Nat}

theorem lt_of_allowsRetry (hallows : policy.allowsRetry attempt = true)
    (hlimit : policy.maxAttempts = some limit) : attempt < limit := by
  simpa [allowsRetry, hlimit] using hallows

theorem limit_of_not_allowsRetry (hallows : policy.allowsRetry attempt = false) :
    ∃ limit, policy.maxAttempts = some limit ∧ limit ≤ attempt := by
  rw [allowsRetry] at hallows
  cases hlimit : policy.maxAttempts with
  | none =>
    rw [hlimit] at hallows
    cases hallows
  | some limit =>
    rw [hlimit, Option.all_some, decide_eq_false_iff_not] at hallows
    exact ⟨limit, rfl, Nat.le_of_not_lt hallows⟩

end RetryPolicy

/-- The calls that are made for some groups from an attempt on. -/
structure Sent (policy : RetryPolicy) (attempt rounds : Nat)
    (groups : List (String × List BatchEntry)) (calls : List Call) : Prop where
  first : calls.head? = some (Store.batchCall groups)
  sizes : ∀ call ∈ calls, 1 ≤ call.items ∧ call.items ≤ Entries.count groups
  rounds : calls.length ≤ rounds + 1
  attempts : ∀ limit, policy.maxAttempts = some limit → calls.length ≤ max (limit + 1 - attempt) 1

namespace Sent

variable {policy : RetryPolicy} {attempt rounds : Nat}
  {groups left : List (String × List BatchEntry)} {calls : List Call}

theorem once (hgrouped : Grouped groups) (hgroups : groups ≠ []) :
    Sent policy attempt rounds groups [Store.batchCall groups] where
  first := rfl
  sizes := by
    intro call hmem
    rw [List.mem_singleton.mp hmem]
    exact ⟨hgrouped.count_pos hgroups, Nat.le_refl _⟩
  rounds := Nat.le_add_left _ _
  attempts := fun _ _ => Nat.le_max_right _ _

theorem again (hgrouped : Grouped groups) (hgroups : groups ≠ [])
    (hallows : policy.allowsRetry attempt = true) (hcount : Entries.count left ≤ Entries.count groups)
    (hsent : Sent policy (attempt + 1) rounds left calls) :
    Sent policy attempt (rounds + 1) groups (Store.batchCall groups :: calls) where
  first := rfl
  sizes := by
    intro call hmem
    rcases List.mem_cons.mp hmem with rfl | hmem
    · exact ⟨hgrouped.count_pos hgroups, Nat.le_refl _⟩
    · exact ⟨(hsent.sizes call hmem).1, Nat.le_trans (hsent.sizes call hmem).2 hcount⟩
  rounds := Nat.succ_le_succ hsent.rounds
  attempts := by
    intro limit hlimit
    have hless := RetryPolicy.lt_of_allowsRetry hallows hlimit
    have hrest := hsent.attempts limit hlimit
    rw [List.length_cons]
    omega

theorem mono {more : Nat} (hsent : Sent policy attempt rounds groups calls) (hless : rounds ≤ more) :
    Sent policy attempt more groups calls :=
  ⟨hsent.first, hsent.sizes, Nat.le_trans hsent.rounds (Nat.succ_le_succ hless), hsent.attempts⟩

end Sent

namespace Client

variable {client : Client} {session : Session} {groups : List (String × List BatchEntry)}

theorem run_awaitRetry {attempt : Nat} (remaining : Nat)
    (hallows : client.config.retry.allowsRetry attempt = true) (session : Session) :
    ∃ later, (client.awaitRetry attempt remaining).run.run session = (.ok (), later) ∧
      later.store = session.store := by
  unfold awaitRetry
  rw [if_pos hallows]
  exact Session.run_sleep _ session

theorem run_awaitRetry_of_not {attempt : Nat} (remaining : Nat)
    (hallows : client.config.retry.allowsRetry attempt = false) (session : Session) :
    (client.awaitRetry attempt remaining).run.run session =
      (.error (.unprocessed remaining attempt), session) := by
  rw [awaitRetry, hallows]
  rfl

/-- Sends what a call left unprocessed, if it left anything. -/
def resend (client : Client) (bound attempt : Nat) (left : List (String × List BatchEntry)) :
    SessionCall Unit :=
  if !left.isEmpty then do
    client.awaitRetry attempt (Entries.count left)
    client.writeChunk bound (attempt + 1) left
  else pure ()

theorem resend_of_ne_nil (client : Client) (bound attempt : Nat)
    {left : List (String × List BatchEntry)} (hleft : left ≠ []) :
    client.resend bound attempt left = (do
      client.awaitRetry attempt (Entries.count left)
      client.writeChunk bound (attempt + 1) left) :=
  if_pos (by simpa using hleft)

/-- A chunk is sent by one call, which is followed by others for what it left. -/
theorem run_writeChunk_succ (client : Client) (bound attempt : Nat) (hgrouped : Grouped groups)
    (htakes : Takes session.store.tables groups) :
    ∃ middle, Store.Round groups session.store middle.store ∧
      (client.writeChunk (bound + 1) attempt groups).run.run session =
        (client.resend bound attempt
          (Batch.remaining session.store.throttles groups)).run.run middle := by
  have hthere : ∀ name ∈ Entries.names groups, ∃ stored,
      session.store.table? name = some stored := by
    intro name hmem
    obtain ⟨group, hgroup, rfl⟩ := List.mem_map.mp hmem
    obtain ⟨stored, htable, _⟩ := htakes group hgroup
    exact ⟨stored, htable⟩
  obtain ⟨ready, hacquire, hdescribed⟩ :=
    Session.run_acquireAll client.config.limits .write hthere
  have hthrottles : ready.store.throttles = session.store.throttles := by
    rw [Store.throttles, hdescribed.rounds]
    rfl
  obtain ⟨capacities, tables, hwrite, hafter⟩ := @Store.run_batchWrite ready.store groups
    hgrouped.ascending.nodup (by rw [hdescribed.tables]; exact htakes)
  rw [hthrottles] at hwrite hafter
  obtain ⟨middle, hrecord, hstore⟩ := Session.run_recordAll .write capacities
    { ready with store := ⟨tables, ready.store.calls ++ [Store.batchCall groups],
      ready.store.unprocessedRounds - 1⟩ }
  refine ⟨middle, ?_, ?_⟩
  · rw [hstore]
    refine ⟨?_, ?_, ?_⟩
    · rw [← hdescribed.batchCalls_eq]
      exact List.filter_append ..
    · rw [hdescribed.rounds]
    · rw [← hdescribed.tables]
      exact hafter
  · rw [writeChunk, acquireAll, run_bind_of_ok hacquire,
      run_bind_of_ok (Session.run_call_eq hwrite), run_bind_of_ok hrecord]
    rfl

/-- What sending some groups comes to. -/
structure ChunkEnds (client : Client) (attempt : Nat) (groups : List (String × List BatchEntry))
    (store later : Store) (outcome : Except Error Unit) (calls : List Call) : Prop where
  sent : Sent client.config.retry attempt store.unprocessedRounds groups calls
  calls : later.batchCalls = store.batchCalls ++ calls
  made : outcome = .ok () → later.unprocessedRounds ≤ store.unprocessedRounds ∧
    TablesAfter (under groups) store.tables later.tables
  ends : (∀ limit, client.config.retry.maxAttempts = some limit →
    store.unprocessedRounds ≤ limit - attempt) → outcome = .ok ()

namespace ChunkEnds

variable {attempt : Nat} {store middle later : Store} {outcome : Except Error Unit}
  {calls : List Call}

/-- A call that is not throttled makes every write. -/
theorem once (hround : Store.Round groups store middle) (hgrouped : Grouped groups)
    (hgroups : groups ≠ []) (hthrottles : store.throttles = false) :
    client.ChunkEnds attempt groups store middle (.ok ()) [Store.batchCall groups] where
  sent := .once hgrouped hgroups
  calls := hround.calls
  made := by
    intro _
    have hall : under (Batch.handled store.throttles groups) = under groups := by
      funext name
      rw [← Batch.under_handled_append_remaining false hgrouped.ascending.nodup name, hthrottles,
        Batch.remaining_unthrottled]
      exact (List.append_nil _).symm
    constructor
    · rw [hround.rounds]
      exact Nat.sub_le _ _
    · rw [← hall]
      exact hround.tables
  ends := fun _ => rfl

/-- Where the policy allows no retry, more rounds were throttled than it allows attempts. -/
theorem givenUp {error : Error} (hround : Store.Round groups store middle)
    (hgrouped : Grouped groups) (hgroups : groups ≠ []) (hrounds : store.unprocessedRounds ≠ 0)
    (hallows : client.config.retry.allowsRetry attempt = false) :
    client.ChunkEnds attempt groups store middle (.error error) [Store.batchCall groups] where
  sent := .once hgrouped hgroups
  calls := hround.calls
  made := by
    intro hok
    cases hok
  ends := by
    intro henough
    obtain ⟨limit, hlimit, hless⟩ := RetryPolicy.limit_of_not_allowsRetry hallows
    have hrounds := henough limit hlimit
    omega

/-- What a throttled call left is sent by later ones. -/
theorem again (hround : Store.Round groups store middle) (hgrouped : Grouped groups)
    (hgroups : groups ≠ []) (hthrottles : store.throttles = true)
    (hallows : client.config.retry.allowsRetry attempt = true)
    (hrest : client.ChunkEnds (attempt + 1) (Batch.remaining true groups) middle later outcome
      calls) :
    client.ChunkEnds attempt groups store later outcome (Store.batchCall groups :: calls) := by
  have hrounds : middle.unprocessedRounds + 1 = store.unprocessedRounds := by
    have hpositive : store.unprocessedRounds ≠ 0 := of_decide_eq_true hthrottles
    rw [hround.rounds]
    omega
  constructor
  · rw [← hrounds]
    exact .again hgrouped hgroups hallows (Batch.count_remaining_le true groups) hrest.sent
  · rw [hrest.calls, hround.calls, List.append_assoc]
    rfl
  · intro hok
    obtain ⟨hless, hafter⟩ := hrest.made hok
    have hboth : under groups = fun name => under (Batch.handled true groups) name ++
        under (Batch.remaining true groups) name :=
      funext fun name =>
        (Batch.under_handled_append_remaining true hgrouped.ascending.nodup name).symm
    have hfirst := hround.tables
    rw [hthrottles] at hfirst
    refine ⟨by omega, ?_⟩
    rw [hboth]
    exact hfirst.trans hafter
  · intro henough
    refine hrest.ends fun limit hlimit => ?_
    have hless := henough limit hlimit
    omega

end ChunkEnds

/-- One call more than there are throttled rounds is enough for a chunk. -/
theorem chunkEnds_of_run (client : Client) {bound : Nat} (attempt : Nat) (hgrouped : Grouped groups)
    (hgroups : groups ≠ []) (htakes : Takes session.store.tables groups)
    (hbound : session.store.unprocessedRounds < bound) :
    ∃ outcome last calls,
      (client.writeChunk bound attempt groups).run.run session = (outcome, last) ∧
        client.ChunkEnds attempt groups session.store last.store outcome calls := by
  induction bound generalizing attempt session groups with
  | zero => exact absurd hbound (Nat.not_lt_zero _)
  | succ bound ih =>
    obtain ⟨middle, hround, hrun⟩ := client.run_writeChunk_succ bound attempt hgrouped htakes
    cases hthrottles : session.store.throttles with
    | false =>
      rw [hthrottles, Batch.remaining_unthrottled] at hrun
      exact ⟨.ok (), middle, _, hrun, .once hround hgrouped hgroups hthrottles⟩
    | true =>
      have hrounds : session.store.unprocessedRounds ≠ 0 := of_decide_eq_true hthrottles
      have hleft := Batch.remaining_throttled_ne_nil hgrouped hgroups
      rw [hthrottles, client.resend_of_ne_nil _ _ hleft] at hrun
      cases hallows : client.config.retry.allowsRetry attempt with
      | false =>
        rw [run_bind_of_error (run_awaitRetry_of_not _ hallows middle)] at hrun
        exact ⟨_, middle, _, hrun, .givenUp hround hgrouped hgroups hrounds hallows⟩
      | true =>
        obtain ⟨waited, hwait, hstore⟩ := run_awaitRetry
          (Entries.count (Batch.remaining true groups)) hallows middle
        have htables := hround.tables.takes (htakes.remaining true)
        obtain ⟨outcome, last, calls, hrest, hends⟩ := @ih waited _ (attempt + 1)
          (hgrouped.remaining true) hleft (by rw [hstore]; exact htables)
          (by rw [hstore, hround.rounds]; omega)
        rw [hstore] at hends
        rw [run_bind_of_ok hwait, hrest] at hrun
        exact ⟨outcome, last, _, hrun, .again hround hgrouped hgroups hthrottles hallows hends⟩

/-! ### Sending all chunks -/

/-- Sends one run of a batch. -/
def sendRun (client : Client) (run : List (String × BatchEntry)) : SessionCall Unit := do
  client.writeChunk (← callBound) 1 (byTable run)

/-- Runs that are sent one after another, up to the first that is given up, with the calls that were
made for each of them. -/
inductive RunsEnd (client : Client) : List (List (String × BatchEntry)) → Store → Store →
    Except Error Unit → List (List Call) → Prop where
  | done (store : Store) : RunsEnd client [] store store (.ok ()) []
  | givenUp {run : List (String × BatchEntry)} {rest : List (List (String × BatchEntry))}
    {store later : Store} {error : Error} {calls : List Call}
    (hrun : client.ChunkEnds 1 (byTable run) store later (.error error) calls) :
    RunsEnd client (run :: rest) store later (.error error) [calls]
  | sent {run : List (String × BatchEntry)} {rest : List (List (String × BatchEntry))}
    {store middle later : Store} {outcome : Except Error Unit} {calls : List Call}
    {sends : List (List Call)}
    (hrun : client.ChunkEnds 1 (byTable run) store middle (.ok ()) calls)
    (hrest : RunsEnd client rest middle later outcome sends) :
    RunsEnd client (run :: rest) store later outcome (calls :: sends)

theorem run_sendRun {run : List (String × BatchEntry)} {outcome : Except Error Unit} {last : Session}
    (hrun : (client.writeChunk (session.store.unprocessedRounds + 1) 1 (byTable run)).run.run
      session = (outcome, last)) :
    (client.sendRun run).run.run session = (outcome, last) := by
  have hbound : callBound.run.run session =
      (.ok (session.store.unprocessedRounds + 1), session) := rfl
  rw [sendRun, run_bind_of_ok hbound, hrun]

theorem runsEnd_of_run (client : Client) {runs : List (List (String × BatchEntry))}
    (hruns : ∀ run ∈ runs, run ≠ [])
    (haccepts : ∀ run ∈ runs, ∀ request ∈ run, Accepts session.store.tables request) :
    ∃ outcome last sends, (runs.forM client.sendRun).run.run session = (outcome, last) ∧
      client.RunsEnd runs session.store last.store outcome sends := by
  induction runs generalizing session with
  | nil => exact ⟨.ok (), session, [], rfl, .done _⟩
  | cons run rest ih =>
    have hgathers := Batch.gathers_byTable run
    have hgroups := Batch.byTable_ne_nil (hruns run List.mem_cons_self)
    obtain ⟨outcome, middle, calls, hrun, hends⟩ := client.chunkEnds_of_run 1 hgathers.toGrouped
      hgroups (takes_of_gathers hgathers (haccepts run List.mem_cons_self)) (Nat.lt_succ_self _)
    have hsend := run_sendRun hrun
    change ∃ outcome last sends, (client.sendRun run >>= fun _ =>
      rest.forM client.sendRun).run.run session = (outcome, last) ∧ _
    cases outcome with
    | error error =>
      rw [run_bind_of_error hsend]
      exact ⟨.error error, middle, [calls], rfl, .givenUp hends⟩
    | ok done =>
      rw [run_bind_of_ok hsend]
      obtain ⟨outcome, last, sends, hrest, hrestEnds⟩ := @ih middle
        (fun other hmem => hruns other (List.mem_cons_of_mem _ hmem))
        fun other hmem request hrequest => (hends.made rfl).2.accepts
          (haccepts other (List.mem_cons_of_mem _ hmem) request hrequest)
      exact ⟨outcome, last, calls :: sends, hrest, .sent hends hrestEnds⟩

namespace RunsEnd

variable {runs : List (List (String × BatchEntry))} {store later : Store}
  {outcome : Except Error Unit} {sends : List (List Call)}

theorem calls_eq (hends : client.RunsEnd runs store later outcome sends) :
    later.batchCalls = store.batchCalls ++ sends.flatten := by
  induction hends with
  | done store => exact (List.append_nil _).symm
  | givenUp hrun =>
    rw [hrun.calls]
    simp
  | sent hrun _ ih => rw [ih, hrun.calls, List.append_assoc, List.flatten_cons]

/-- Each run that is begun is sent by calls of its own. -/
theorem sent_each (hends : client.RunsEnd runs store later outcome sends) :
    List.Forall₂ (fun run calls =>
      Sent client.config.retry 1 store.unprocessedRounds (byTable run) calls)
      (runs.take sends.length) sends := by
  induction hends with
  | done => exact .nil
  | givenUp hrun => exact .cons hrun.sent (by simp)
  | sent hrun _ ih =>
    refine .cons hrun.sent (ih.imp fun run calls hsent => ?_)
    exact hsent.mono (hrun.made rfl).1

/-- Runs that are all sent leave what their requests leave one by one. -/
theorem made (hends : client.RunsEnd runs store later (.ok ()) sends) :
    sends.length = runs.length ∧
      TablesAfter (fun name => requestsFor name runs.flatten) store.tables later.tables := by
  generalize houtcome : (Except.ok () : Except Error Unit) = outcome at hends
  induction hends with
  | done => exact ⟨rfl, .refl _⟩
  | givenUp => cases houtcome
  | @sent run rest _ _ _ _ _ _ hrun _ ih =>
    obtain ⟨hlength, hrest⟩ := ih houtcome
    refine ⟨congrArg Nat.succ hlength, ?_⟩
    have hsplit : (fun name => requestsFor name (run :: rest).flatten) = fun name =>
        under (byTable run) name ++ requestsFor name rest.flatten := by
      funext name
      rw [List.flatten_cons, Batch.requestsFor_append, (Batch.gathers_byTable run).under]
    rw [hsplit]
    exact (hrun.made rfl).2.trans hrest

theorem ends (hends : client.RunsEnd runs store later outcome sends)
    (henough : ∀ limit, client.config.retry.maxAttempts = some limit →
      store.unprocessedRounds < max limit 1) : outcome = .ok () := by
  induction hends with
  | done => rfl
  | givenUp hrun =>
    refine hrun.ends fun limit hlimit => ?_
    have hless := henough limit hlimit
    omega
  | sent hrun _ ih =>
    exact ih fun limit hlimit => Nat.lt_of_le_of_lt (hrun.made rfl).1 (henough limit hlimit)

end RunsEnd

end Client

end RecordStore
