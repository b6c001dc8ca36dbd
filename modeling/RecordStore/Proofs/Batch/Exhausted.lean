import RecordStore.Proofs.Batch.Whole

/-!
# Exhausted batches

A batch whose retries run out fails with the number of requests that its current chunk left. The
requests before those were made, in their order for every table, and the chunks after that one were
not sent. They are not in the number, which is therefore that of all requests that were never made
only where the chunk is the last one.
-/

namespace RecordStore

open Entries (under)
open Batch (Grouped requestsFor byTable chunks)

namespace Batch

variable {α : Type} {throttled : Bool} {groups : List (String × List α)}

/-! ### Requests of groups -/

/-- The requests that groups hold, one table after another. -/
def requests (groups : List (String × List α)) : List (String × α) :=
  groups.flatMap fun group => group.2.map (Prod.mk group.1)

theorem requests_cons (group : String × List α) (rest : List (String × List α)) :
    requests (group :: rest) = group.2.map (Prod.mk group.1) ++ requests rest :=
  List.flatMap_cons

theorem length_requests (groups : List (String × List α)) :
    (requests groups).length = Entries.count groups := by
  induction groups with
  | nil => rfl
  | cons group rest ih => rw [requests_cons, List.length_append, List.length_map, ih, Entries.count]

theorem requestsFor_requests (hnames : (Entries.names groups).Nodup) (name : String) :
    requestsFor name (requests groups) = under groups name := by
  induction groups with
  | nil => rfl
  | cons group rest ih =>
    obtain ⟨hfresh, hrest⟩ := List.nodup_cons.mp hnames
    rw [requests_cons, requestsFor_append, ih hrest, Entries.under_cons]
    by_cases hname : group.1 = name
    · -- The name comes once, so the other groups hold nothing for it.
      have hnone : under rest name = [] := Entries.under_of_fresh fun other hmem hsame =>
        hfresh (List.mem_map.mpr ⟨other, hmem, hsame.trans hname.symm⟩)
      have hall : ∀ request ∈ group.2.map (Prod.mk group.1), request.1 = name := by
        intro request hmem
        obtain ⟨entry, _, rfl⟩ := List.mem_map.mp hmem
        exact hname
      rw [if_pos hname, hnone, List.append_nil, requestsFor_of_all hall, List.map_map]
      exact List.map_id _
    · have hother : ∀ request ∈ group.2.map (Prod.mk group.1), request.1 ≠ name := by
        intro request hmem
        obtain ⟨entry, _, rfl⟩ := List.mem_map.mp hmem
        exact hname
      rw [if_neg hname, requestsFor_of_none hother, List.nil_append]

theorem names_handled (throttled : Bool) (groups : List (String × List α)) :
    Entries.names (handled throttled groups) = Entries.names groups :=
  List.map_map

theorem count_leftOver_append (name : String) (items : List α) (rest : List (String × List α)) :
    Entries.count (Store.leftOver name items id ++ rest) = items.length + Entries.count rest := by
  unfold Store.leftOver
  split
  · rename_i hnone
    rw [List.isEmpty_iff.mp hnone, List.nil_append, List.length_nil, Nat.zero_add]
  · rfl

theorem count_handled_add_remaining (throttled : Bool) (groups : List (String × List α)) :
    Entries.count (handled throttled groups) + Entries.count (remaining throttled groups) =
      Entries.count groups := by
  induction groups with
  | nil => rfl
  | cons group rest ih =>
    have hsplit := congrArg List.length
      (List.take_append_drop (Store.processedCount throttled group.2.length) group.2)
    rw [List.length_append] at hsplit
    have hleft := count_leftOver_append group.1
      (group.2.drop (Store.processedCount throttled group.2.length)) (remaining throttled rest)
    change (group.2.take (Store.processedCount throttled group.2.length)).length +
      Entries.count (handled throttled rest) +
        Entries.count (Store.leftOver group.1 _ id ++ remaining throttled rest) =
      group.2.length + Entries.count rest
    omega

end Batch

/-! ### Made and unmade requests -/

/-- Of the requests those in `made` were made, in their order for each table, and the others, those
in `unmade`, were not. -/
structure Settles (requests made unmade : List (String × BatchEntry)) (store later : Store) :
    Prop where
  order : ∀ name, requestsFor name requests = requestsFor name made ++ requestsFor name unmade
  count : requests.length = made.length + unmade.length
  tables : TablesAfter (fun name => requestsFor name made) store.tables later.tables

namespace Settles

variable {requests made unmade more left later unsent : List (String × BatchEntry)}
  {store middle last : Store}

/-- Requests that were made before the others. -/
theorem ofMade {first : List (String × BatchEntry)}
    (hafter : TablesAfter (fun name => requestsFor name first) store.tables middle.tables)
    (second : List (String × BatchEntry)) :
    Settles (first ++ second) first second store middle where
  order := fun name => Batch.requestsFor_append name first second
  count := List.length_append
  tables := hafter

/-- Some of the unmade requests are made later. -/
theorem trans (hfirst : Settles requests made unmade store middle)
    (hsecond : Settles unmade more left middle last) :
    Settles requests (made ++ more) left store last where
  order := by
    intro name
    rw [hfirst.order, hsecond.order, Batch.requestsFor_append, List.append_assoc]
  count := by
    rw [hfirst.count, hsecond.count, List.length_append, Nat.add_assoc]
  tables := by
    have hboth : (fun name => requestsFor name (made ++ more)) = fun name =>
        requestsFor name made ++ requestsFor name more :=
      funext fun name => Batch.requestsFor_append name made more
    rw [hboth]
    exact hfirst.tables.trans hsecond.tables

/-- Further requests that were not sent are unmade too. -/
theorem append (hsettles : Settles requests made unmade store last)
    (unsent : List (String × BatchEntry)) :
    Settles (requests ++ unsent) made (unmade ++ unsent) store last where
  order := by
    intro name
    rw [Batch.requestsFor_append, hsettles.order, Batch.requestsFor_append, List.append_assoc]
  count := by
    rw [List.length_append, hsettles.count, List.length_append, Nat.add_assoc]
  tables := hsettles.tables

/-- The same requests gathered by their tables. -/
theorem ofByTable {run : List (String × BatchEntry)}
    (hsettles : Settles (Batch.requests (byTable run)) made unmade store last) :
    Settles run made unmade store last where
  order := by
    intro name
    have hgathers := Batch.gathers_byTable run
    rw [← hsettles.order, Batch.requestsFor_requests hgathers.ascending.nodup, hgathers.under]
  count := by
    rw [← hsettles.count, Batch.length_requests, (Batch.gathers_byTable run).count]
  tables := hsettles.tables

end Settles

/-- One round settles what it handles. -/
theorem Store.Round.settles {groups : List (String × List BatchEntry)} {store middle : Store}
    (hround : Store.Round groups store middle) (hgrouped : Grouped groups) :
    Settles (Batch.requests groups) (Batch.requests (Batch.handled store.throttles groups))
      (Batch.requests (Batch.remaining store.throttles groups)) store middle := by
  have hnames := hgrouped.ascending.nodup
  have hhandled : (Entries.names (Batch.handled store.throttles groups)).Nodup := by
    rw [Batch.names_handled]
    exact hnames
  have hmade : (fun name =>
      requestsFor name (Batch.requests (Batch.handled store.throttles groups))) =
        under (Batch.handled store.throttles groups) :=
    funext (Batch.requestsFor_requests hhandled)
  constructor
  · intro name
    rw [Batch.requestsFor_requests hnames, Batch.requestsFor_requests hhandled,
      Batch.requestsFor_requests (hgrouped.remaining _).ascending.nodup,
      Batch.under_handled_append_remaining _ hnames]
  · rw [Batch.length_requests, Batch.length_requests, Batch.length_requests,
      Batch.count_handled_add_remaining]
  · rw [hmade]
    exact hround.tables

namespace Client

variable {client : Client} {items : List (String × List RecordWrite)}
  {entries : List (String × BatchEntry)} {session last : Session} {error : Error}
  {groups : List (String × List BatchEntry)}

/-! ### Giving up -/

/-- Some of the requests are unmade, and the error tells how many of a chunk they are and after how
many attempts. -/
structure GivesUp (client : Client) (attempt : Nat) (error : Error)
    (requests made left : List (String × BatchEntry)) (store later : Store) : Prop where
  error : ∃ limit, client.config.retry.maxAttempts = some limit ∧
    error = .unprocessed left.length (max limit attempt)
  ne_nil : left ≠ []
  settles : Settles requests made left store later

/-- A chunk fails only where its retries run out. -/
theorem givesUp_of_writeChunk {bound attempt : Nat} (hgrouped : Grouped groups)
    (hgroups : groups ≠ []) (htakes : Takes session.store.tables groups)
    (hfails : (client.writeChunk bound attempt groups).run.run session = (.error error, last)) :
    ∃ made left, client.GivesUp attempt error (Batch.requests groups) made left
      session.store last.store := by
  induction bound generalizing attempt session groups with
  | zero => cases hfails
  | succ bound ih =>
    obtain ⟨middle, hround, hrun⟩ := client.run_writeChunk_succ bound attempt hgrouped htakes
    have hsettles := hround.settles hgrouped
    rw [hrun] at hfails
    cases hthrottles : session.store.throttles with
    | false =>
      rw [hthrottles, Batch.remaining_unthrottled] at hfails
      cases hfails
    | true =>
      rw [hthrottles] at hfails hsettles
      have hleft := Batch.remaining_throttled_ne_nil hgrouped hgroups
      rw [client.resend_of_ne_nil _ _ hleft] at hfails
      cases hallows : client.config.retry.allowsRetry attempt with
      | false =>
        rw [run_bind_of_error (run_awaitRetry_of_not _ hallows middle)] at hfails
        cases hfails
        obtain ⟨limit, hlimit, hless⟩ := RetryPolicy.limit_of_not_allowsRetry hallows
        refine ⟨_, _, ⟨limit, hlimit, ?_⟩, ?_, hsettles⟩
        · rw [Batch.length_requests, Nat.max_eq_right hless]
        · rw [← List.length_pos_iff, Batch.length_requests]
          exact (hgrouped.remaining true).count_pos hleft
      | true =>
        obtain ⟨waited, hwait, hstore⟩ := run_awaitRetry
          (Entries.count (Batch.remaining true groups)) hallows middle
        have htables : Takes waited.store.tables (Batch.remaining true groups) := by
          rw [hstore]
          exact hround.tables.takes (htakes.remaining true)
        rw [run_bind_of_ok hwait] at hfails
        obtain ⟨made, left, ⟨limit, hlimit, herror⟩, hne, hrest⟩ :=
          ih (hgrouped.remaining true) hleft htables hfails
        rw [hstore] at hrest
        refine ⟨_, left, ⟨limit, hlimit, ?_⟩, hne, hsettles.trans hrest⟩
        have hless := RetryPolicy.lt_of_allowsRetry hallows hlimit
        rw [herror, Nat.max_eq_left hless, Nat.max_eq_left (Nat.le_of_lt hless)]

/-- The runs before the one that is given up are made, and those after it are not sent. -/
theorem givesUp_of_runs {runs : List (List (String × BatchEntry))} (hruns : ∀ run ∈ runs, run ≠ [])
    (haccepts : ∀ run ∈ runs, ∀ request ∈ run, Accepts session.store.tables request)
    (hfails : (runs.forM client.sendRun).run.run session = (.error error, last)) :
    ∃ sent run rest made left, runs = sent ++ run :: rest ∧ left.length ≤ run.length ∧
      client.GivesUp 1 error (sent ++ [run]).flatten made left session.store last.store := by
  induction runs generalizing session with
  | nil => cases hfails
  | cons run rest ih =>
    have hgathers := Batch.gathers_byTable run
    have hgroups := Batch.byTable_ne_nil (hruns run List.mem_cons_self)
    have htakes := takes_of_gathers hgathers (haccepts run List.mem_cons_self)
    obtain ⟨outcome, middle, calls, hrun, hends⟩ := client.chunkEnds_of_run 1 hgathers.toGrouped
      hgroups htakes (Nat.lt_succ_self _)
    have hsend := run_sendRun hrun
    change (client.sendRun run >>= fun _ => rest.forM client.sendRun).run.run session = _ at hfails
    cases outcome with
    | error failure =>
      rw [run_bind_of_error hsend] at hfails
      cases hfails
      obtain ⟨made, left, herror, hne, hsettles⟩ :=
        givesUp_of_writeChunk hgathers.toGrouped hgroups htakes hrun
      have hrun := hsettles.ofByTable
      refine ⟨[], run, rest, made, left, rfl, ?_, herror, hne, ?_⟩
      · rw [hrun.count]
        exact Nat.le_add_left _ _
      · rw [List.nil_append, List.flatten_singleton]
        exact hrun
    | ok done =>
      rw [run_bind_of_ok hsend] at hfails
      have hafter := (hends.made rfl).2
      obtain ⟨sent, last, others, made, left, rfl, hless, herror, hne, hsettles⟩ := @ih middle
        (fun other hmem => hruns other (List.mem_cons_of_mem _ hmem))
        (fun other hmem request hrequest => hafter.accepts
          (haccepts other (List.mem_cons_of_mem _ hmem) request hrequest)) hfails
      have hmade : TablesAfter (fun name => requestsFor name run) session.store.tables
          middle.store.tables := by
        rw [← funext hgathers.under]
        exact hafter
      refine ⟨run :: sent, last, others, run ++ made, left, rfl, hless, herror, hne, ?_⟩
      rw [List.cons_append, List.flatten_cons]
      exact (Settles.ofMade hmade _).trans hsettles

/-- What a failed batch comes to: `left` are the unmade requests of the chunk that was given up, and
`unsent` those of the chunks after it. -/
structure Exhausted (client : Client) (entries : List (String × BatchEntry)) (error : Error)
    (made left unsent : List (String × BatchEntry)) (store later : Store) : Prop where
  error : ∃ limit, client.config.retry.maxAttempts = some limit ∧
    error = .unprocessed left.length (max limit 1)
  some_left : 1 ≤ left.length ∧ left.length ≤ maxBatchWrites
  settles : Settles entries made (left ++ unsent) store later
  /-- All requests of the chunk that was given up, and of those before it, are accounted for. -/
  unsent : ∃ sent run rest, chunks maxBatchWrites entries = sent ++ run :: rest ∧
    unsent = rest.flatten

namespace Exhausted

variable {made left unsent : List (String × BatchEntry)} {store later : Store}

/-- A batch of a single chunk has nothing that was not sent. -/
theorem unsent_of_le (hexhausted : client.Exhausted entries error made left unsent store later)
    (hless : entries.length ≤ maxBatchWrites) : unsent = [] := by
  obtain ⟨sent, run, rest, hchunks, rfl⟩ := hexhausted.unsent
  cases rest with
  | nil => rfl
  | cons next others =>
    have hcut := Batch.cut_chunks (by decide : 0 < maxBatchWrites) entries
    have hfull : run.length = maxBatchWrites := hcut.full run (by simp [hchunks])
    have hnext := (hcut.bounded next (by simp [hchunks])).1
    have hall := congrArg List.length hcut.flatten
    simp only [hchunks, List.flatten_append, List.flatten_cons, List.length_append] at hall
    omega

/-- The number in the error is that of the unmade requests only where every chunk was sent. -/
theorem exact_iff (hexhausted : client.Exhausted entries error made left unsent store later) :
    entries.length - made.length = left.length ↔ unsent = [] := by
  have hcount := hexhausted.settles.count
  rw [List.length_append] at hcount
  rw [← List.length_eq_zero_iff]
  omega

end Exhausted

/-- Whatever made a batch fail that encodes, the error tells how many requests of the current chunk
were not made. -/
theorem exhausted_of_batchWrite {description : SchemaDescription}
    {registrations : List (String × Migration)}
    (hbuild : Registry.build description registrations = .ok client.registry)
    (hserves : session.store.Serves client.registry) (hkeyed : client.Keyed items)
    (hentries : client.batchEntries items = .ok entries)
    (hfails : (client.batchWrite items).run.run session = (.error error, last)) :
    ∃ made left unsent,
      client.Exhausted entries error made left unsent session.store last.store := by
  have haccepts := accepts_of_batchEntries (Registry.tables_of_build hbuild) hserves hkeyed hentries
  have hcut := Batch.cut_chunks (by decide : 0 < maxBatchWrites) entries
  rw [batchWrite,
    run_bind_of_ok ((run_except _ _).trans (congrArg (·, session) hentries))] at hfails
  obtain ⟨sent, run, rest, made, left, hchunks, hless, herror, hne, hsettles⟩ :=
    givesUp_of_runs (fun run hrun => List.length_pos_iff.mp (hcut.bounded run hrun).1)
      (fun run hrun request hrequest => haccepts request
        (hcut.flatten ▸ List.mem_flatten_of_mem hrun hrequest)) hfails
  have hrun := (hcut.bounded run (by simp [hchunks])).2
  have hflatten : (sent ++ [run]).flatten ++ rest.flatten = entries := by
    rw [← List.flatten_append, List.append_assoc, List.singleton_append, ← hchunks, hcut.flatten]
  refine ⟨made, left, rest.flatten, herror, ⟨List.length_pos_iff.mpr hne, hless.trans hrun⟩, ?_,
    sent, run, rest, hchunks, rfl⟩
  rw [← hflatten]
  exact hsettles.append rest.flatten

/-- The client of the stock, which sends every call once. -/
def hastyClient : Client :=
  { stockClient with config := { stockClient.config with retry := ⟨some 1, 0, 0⟩ } }

/-- Removes one article again and again. -/
def stockRemovals : List (String × List RecordWrite) :=
  [("stock", List.replicate 26 (.delete ⟨.string "a", none⟩))]

/-- Twelve removals of the first chunk are made, and the error tells of its other thirteen: the one
of the second chunk, which was not made either, is not among them. -/
theorem exhausted_of_batchWrite_stock :
    ∃ last made left unsent,
      (hastyClient.batchWrite stockRemovals).run.run (.start (stockStore.failUnprocessed 1)) =
        (.error (.unprocessed 13 1), last) ∧
      hastyClient.Exhausted (List.replicate 26 ("stock", ⟨none, some [("id", .string "a")]⟩))
        (.unprocessed 13 1) made left unsent (stockStore.failUnprocessed 1) last.store := by
  have hserves : (stockStore.failUnprocessed 1).Serves hastyClient.registry := by
    intro table hmem
    cases List.mem_singleton.mp hmem
    exact ⟨_, rfl, rfl⟩
  have hkeyed : hastyClient.Keyed stockRemovals := by
    intro name writes hmem record hput
    cases List.mem_singleton.mp hmem
    cases List.eq_of_mem_replicate hput
  obtain ⟨made, left, unsent, hexhausted⟩ := @exhausted_of_batchWrite hastyClient stockRemovals _
    (.start (stockStore.failUnprocessed 1)) _ (.unprocessed 13 1) stockDescription [] rfl hserves
    hkeyed rfl rfl
  exact ⟨_, made, left, unsent, rfl, hexhausted⟩

end Client

end RecordStore
