import RecordStore.Proofs.Batch.Send
import RecordStore.Proofs.Client.Failure

/-!
# Whole batches

A batch of writes loses, doubles and reorders nothing: whatever rounds leave work unprocessed, every
table ends as if its puts and deletes were made one by one, as long as the retry policy allows as
many attempts as it takes.
-/

namespace RecordStore

open Batch (Cut byTable)

/-- The call that sends a run of requests for the first time. -/
def Batch.callOf (run : List (String × BatchEntry)) : Call :=
  ⟨.batchWriteItem, (RequestContext.ofTables (Entries.names (byTable run))).table, run.length⟩

theorem Batch.batchCall_byTable (run : List (String × BatchEntry)) :
    Store.batchCall (byTable run) = callOf run := by
  rw [Store.batchCall, (gathers_byTable run).count]
  rfl

namespace Client

variable {client : Client} {items : List (String × List RecordWrite)}
  {entries : List (String × BatchEntry)} {session : Session}

/-- The writes to each table are encoded and made one by one in the order given, and no other write
is made. -/
def MakesAll (client : Client) (items : List (String × List RecordWrite)) (store later : Store) :
    Prop :=
  ∀ name, Option.Rel (fun stored left => ∃ written,
      List.Forall₂ (client.Encodes name) (writesOf name items) written ∧
        written.foldlM StoredTable.make stored = .ok left)
    (store.table? name) (later.table? name)

/-- What sending a batch comes to, where `runs` are the chunks of the encoded writes and `sends` are
the calls that were made for each of them in turn. -/
structure BatchEnds (client : Client) (items : List (String × List RecordWrite))
    (entries : List (String × BatchEntry)) (store later : Store) (outcome : Except Error Unit)
    (runs : List (List (String × BatchEntry))) (sends : List (List Call)) : Prop where
  cut : Cut maxBatchWrites entries runs
  calls : later.batchCalls = store.batchCalls ++ sends.flatten
  first : List.Forall₂ (fun run calls => calls.head? = some (Batch.callOf run))
    (runs.take sends.length) sends
  sizes : ∀ calls ∈ sends, ∀ call ∈ calls, 1 ≤ call.items ∧ call.items ≤ maxBatchWrites
  attempts : ∀ limit, client.config.retry.maxAttempts = some limit →
    ∀ calls ∈ sends, calls.length ≤ max limit 1
  /-- Where no round is throttled there is one call for each chunk. -/
  unthrottled : store.unprocessedRounds = 0 → sends = runs.map fun run => [Batch.callOf run]
  /-- Where fewer rounds are throttled than a chunk may be sent, everything is written. -/
  made : (∀ limit, client.config.retry.maxAttempts = some limit →
    store.unprocessedRounds < max limit 1) →
    outcome = .ok () ∧ sends.length = runs.length ∧ client.MakesAll items store later

namespace RunsEnd

variable {runs : List (List (String × BatchEntry))} {store later : Store}
  {outcome : Except Error Unit} {sends : List (List Call)}

theorem first (hends : client.RunsEnd runs store later outcome sends) :
    List.Forall₂ (fun run calls => calls.head? = some (Batch.callOf run))
      (runs.take sends.length) sends :=
  hends.sent_each.imp fun run _ hsent => Batch.batchCall_byTable run ▸ hsent.first

theorem sizes (hends : client.RunsEnd runs store later outcome sends)
    (hcut : Cut maxBatchWrites entries runs) :
    ∀ calls ∈ sends, ∀ call ∈ calls, 1 ≤ call.items ∧ call.items ≤ maxBatchWrites := by
  intro calls hmem call hcall
  obtain ⟨run, hrun, hsent⟩ := exists_mem_of_forall₂ hends.sent_each calls hmem
  obtain ⟨hpositive, hcount⟩ := hsent.sizes call hcall
  refine ⟨hpositive, ?_⟩
  calc call.items ≤ Entries.count (byTable run) := hcount
    _ = run.length := (Batch.gathers_byTable run).count
    _ ≤ maxBatchWrites := (hcut.bounded run (List.mem_of_mem_take hrun)).2

theorem attempts (hends : client.RunsEnd runs store later outcome sends) {limit : Nat}
    (hlimit : client.config.retry.maxAttempts = some limit) :
    ∀ calls ∈ sends, calls.length ≤ max limit 1 := by
  intro calls hmem
  obtain ⟨run, _, hsent⟩ := exists_mem_of_forall₂ hends.sent_each calls hmem
  have hlength := hsent.attempts limit hlimit
  omega

/-- Without throttled rounds every chunk is sent once. -/
theorem unthrottled (hends : client.RunsEnd runs store later outcome sends)
    (hrounds : store.unprocessedRounds = 0) : sends = runs.map fun run => [Batch.callOf run] := by
  cases hends.ends fun limit _ => by omega
  have hsent := hends.sent_each
  rw [hends.made.1, List.take_length, hrounds] at hsent
  have honce : List.Forall₂ (fun calls run => calls = [Batch.callOf run]) sends runs := by
    refine (hsent.imp fun run calls hsent => ?_).flip
    match calls, hsent.first, hsent.rounds with
    | [call], hfirst, _ =>
      change [call] = [Batch.callOf run]
      rw [Option.some.inj hfirst, Batch.batchCall_byTable]
    | _ :: _ :: _, _, hlength => simp at hlength
  rwa [← List.forall₂_map_right_iff, List.forall₂_eq_eq_eq] at honce

end RunsEnd

/-- A batch whose writes all encode, and whose puts have their keys, loses nothing. -/
theorem batchWrite_loses_nothing {description : SchemaDescription}
    {registrations : List (String × Migration)}
    (hbuild : Registry.build description registrations = .ok client.registry)
    (hserves : session.store.Serves client.registry) (hkeyed : client.Keyed items)
    (hentries : client.batchEntries items = .ok entries) :
    ∃ outcome last runs sends,
      (client.batchWrite items).run.run session = (outcome, last) ∧
        client.BatchEnds items entries session.store last.store outcome runs sends := by
  have haccepts := accepts_of_batchEntries (Registry.tables_of_build hbuild) hserves hkeyed hentries
  have hcut := Batch.cut_chunks (by decide : 0 < maxBatchWrites) entries
  have hmem : ∀ run ∈ Batch.chunks maxBatchWrites entries, ∀ request ∈ run, request ∈ entries := by
    intro run hrun request hrequest
    rw [← hcut.flatten]
    exact List.mem_flatten_of_mem hrun hrequest
  obtain ⟨outcome, last, sends, hrun, hends⟩ := @runsEnd_of_run session client
    (Batch.chunks maxBatchWrites entries)
    (fun run hrun => List.length_pos_iff.mp (hcut.bounded run hrun).1)
    fun run hrun request hrequest => haccepts request (hmem run hrun request hrequest)
  refine ⟨outcome, last, Batch.chunks maxBatchWrites entries, sends, ?_, ?_⟩
  · rw [batchWrite, run_bind_of_ok ((run_except _ _).trans (congrArg (·, session) hentries))]
    exact hrun
  · refine ⟨hcut, hends.calls_eq, hends.first, hends.sizes hcut, fun limit => hends.attempts,
      hends.unthrottled, fun henough => ?_⟩
    cases hends.ends henough
    obtain ⟨hlength, hafter⟩ := hends.made
    refine ⟨rfl, hlength, fun name => ?_⟩
    rw [hcut.flatten] at hafter
    have hname := hafter name
    rw [Store.table?, Store.table?]
    generalize Entries.find? session.store.tables name = before at hname ⊢
    generalize Entries.find? last.store.tables name = after at hname ⊢
    cases hname with
    | none => exact .none
    | some hmade => exact .some ⟨_, encodes_requestsFor hentries name, hmade⟩

def stockBatch : List (String × List RecordWrite) :=
  [("stock", [.put ⟨"Article", [("id", .string "c")], 0⟩, .delete ⟨.string "a", none⟩])]

def stockEntries : List (String × BatchEntry) :=
  [("stock", ⟨some [("_v", .number "1"), ("id", .string "c")], none⟩),
    ("stock", ⟨none, some [("id", .string "a")]⟩)]

/-- A new article is stored and the newer one deleted, half of them in a round of their own. -/
theorem batchWrite_loses_nothing_stock :
    Registry.build stockDescription [] = .ok stockClient.registry ∧
      (stockStore.failUnprocessed 1).Serves stockClient.registry ∧
      stockClient.Keyed stockBatch ∧ stockClient.batchEntries stockBatch = .ok stockEntries ∧
      ∃ outcome last runs sends,
        (stockClient.batchWrite stockBatch).run.run (.start (stockStore.failUnprocessed 1)) =
          (outcome, last) ∧
        stockClient.BatchEnds stockBatch stockEntries (stockStore.failUnprocessed 1) last.store
          outcome runs sends := by
  have hserves : (stockStore.failUnprocessed 1).Serves stockClient.registry := by
    intro table hmem
    cases List.mem_singleton.mp hmem
    exact ⟨_, rfl, rfl⟩
  have hkeyed : stockClient.Keyed stockBatch := by
    intro name writes hmem record hput table htable
    cases List.mem_singleton.mp hmem
    cases htable
    rcases List.mem_cons.mp hput with hput | hput
    · cases hput
      exact ⟨⟨.string "c", none⟩, rfl⟩
    · cases List.mem_singleton.mp hput
  exact ⟨rfl, hserves, hkeyed, rfl,
    @batchWrite_loses_nothing stockClient _ _ (.start (stockStore.failUnprocessed 1))
      stockDescription [] rfl hserves hkeyed rfl⟩

end Client

end RecordStore
