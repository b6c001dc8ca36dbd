import RecordStore.Proofs.Expression.Requirement
import RecordStore.Proofs.Locking.Attempt

/-!
# Runs of attempts

However the requests of clients interleave, the store answers them one after another. Of those that
observed one revision at most one succeeds, and the stored revision counts the successes.
-/

namespace RecordStore

variable {table : TableSchema} {key : Item}

/-! ### States of the store -/

namespace Store

/-- The store keeps a table under the keys of its schema, with revisions that are decimal integers
where they are there. -/
def Hosts (store : Store) (table : TableSchema) : Prop :=
  ∃ stored, store.table? table.name = some stored ∧ stored.keys = .ofSchema table.keys ∧
    ∀ item ∈ stored.items, table.CountsRevision item

/-- The item under a key is there, and at a revision. -/
def HoldsAt (store : Store) (table : TableSchema) (key : Item) (revision : Int64) : Prop :=
  ∃ item, store.item? table.name key = some item ∧ Codec.storedRevision table item = .ok revision

variable {store later : Store} {stored : StoredTable}

theorem item?_of_tables_eq (htables : later.tables = store.tables) (name : String) (key : Item) :
    later.item? name key = store.item? name key := by
  rw [item?, item?, table?, table?, htables]

theorem Hosts.of_tables_eq (hhosts : store.Hosts table) (htables : later.tables = store.tables) :
    later.Hosts table := by
  unfold Hosts table? at hhosts ⊢
  rw [htables]
  exact hhosts

theorem HoldsAt.of_tables_eq {revision : Int64} (hholds : store.HoldsAt table key revision)
    (htables : later.tables = store.tables) : later.HoldsAt table key revision := by
  unfold HoldsAt at hholds ⊢
  rw [item?_of_tables_eq htables]
  exact hholds

theorem HoldsAt.unique {first second : Int64} (hfirst : store.HoldsAt table key first)
    (hsecond : store.HoldsAt table key second) : first = second := by
  obtain ⟨item, hitem, hrevision⟩ := hfirst
  obtain ⟨other, hother, hotherRevision⟩ := hsecond
  rw [hitem] at hother
  cases hother
  rw [hrevision] at hotherRevision
  exact Except.ok.inj hotherRevision

/-- The item under a key is missing or at some revision. -/
theorem Hosts.missing_or_holds (hhosts : store.Hosts table) (key : Item) :
    store.item? table.name key = none ∨ ∃ revision, store.HoldsAt table key revision := by
  obtain ⟨stored, hstored, _, hcounts⟩ := hhosts
  cases hfind : stored.find? key with
  | none => exact .inl ((item?_eq hstored).trans hfind)
  | some item =>
    obtain ⟨revision, hrevision⟩ :=
      TableSchema.exists_storedRevision (hcounts item (StoredTable.mem_of_find? hfind))
    exact .inr ⟨revision, item, (item?_eq hstored).trans hfind, hrevision⟩

theorem isAt_iff {observed : Int64} (hstored : store.table? table.name = some stored)
    (hcounts : ∀ item ∈ stored.items, table.CountsRevision item) (hobserved : observed ≠ 0) :
    stored.IsAt table key observed ↔ store.HoldsAt table key observed := by
  unfold StoredTable.IsAt HoldsAt
  rw [item?_eq hstored]
  constructor
  · rintro ⟨item, hfind, htest⟩
    exact ⟨item, hfind, (TableSchema.revisionTest_iff (hcounts item (StoredTable.mem_of_find? hfind))
      hobserved).mp htest⟩
  · rintro ⟨item, hfind, hrevision⟩
    exact ⟨item, hfind, (TableSchema.revisionTest_iff (hcounts item (StoredTable.mem_of_find? hfind))
      hobserved).mpr hrevision⟩

end Store

theorem StoredTable.Becomes.hosts {observed : Int64} {isDelete : Bool} {stored later : StoredTable}
    {store : Store} (hbecomes : stored.Becomes table key observed isDelete later)
    (hkeys : stored.keys = .ofSchema table.keys)
    (hcounts : ∀ item ∈ stored.items, table.CountsRevision item) :
    (store.setTable table.name later).Hosts table := by
  refine ⟨later, Store.table?_setTable _ _ _, ?_⟩
  cases hbecomes with
  | stored hkey hrevision =>
    refine ⟨hkeys, fun item hmem => ?_⟩
    rcases StoredTable.mem_replace hmem with rfl | hmem
    · exact TableSchema.countsRevision_of_get? hrevision
    · exact hcounts item hmem
  | erased => exact ⟨hkeys, fun item hmem => hcounts item (List.mem_of_mem_eraseP hmem)⟩

/-! ### One attempt -/

/-- What an attempt may do: it is applied only to an item at the observed revision, leaves the next
one unless it deletes, is a conflict anywhere else, and changes nothing when it fails. -/
structure Attempt.Respects (attempt : Attempt table key) (store : Store)
    (outcome : Except Error ItemAnswer) (later : Store) : Prop where
  applied : outcome.isOk = true → store.HoldsAt table key attempt.observed
  advanced : outcome.isOk = true → attempt.isDelete = false →
    later.HoldsAt table key (attempt.observed + 1)
  rejected : ¬ store.HoldsAt table key attempt.observed →
    ∃ context, outcome = .error (.writeConflict context)
  unchanged : outcome.isOk = false → later.tables = store.tables

section Attempts

variable (haccepted : table.Accepted) (hlocking : table.optimisticLocking = true) {store : Store}
include haccepted hlocking

theorem Attempt.respects_make (attempt : Attempt table key) (hhosts : store.Hosts table) :
    attempt.Respects store (attempt.make store).1 (attempt.make store).2 ∧
      (attempt.make store).2.Hosts table := by
  obtain ⟨α, operation, context, step, answer, hperform, hfenced⟩ :=
    attempt.isFenced haccepted hlocking
  obtain ⟨stored, hstored, hkeys, hcounts⟩ := id hhosts
  obtain ⟨hrejected, happlied⟩ := hfenced stored hkeys
  have hat : stored.IsAt table key attempt.observed ↔ store.HoldsAt table key attempt.observed :=
    Store.isAt_iff hstored hcounts attempt.observed_ne_zero
  rw [make, hperform, Store.run_conditionalCall hstored]
  cases hstep : step stored with
  | error fault =>
    have hholds : store.HoldsAt table key attempt.observed := by
      by_contra hnot
      rw [hrejected (hat.not.mpr hnot)] at hstep
      cases hstep
    exact ⟨⟨fun _ => hholds, fun hok => Bool.noConfusion hok, fun hnot => absurd hholds hnot,
      fun _ => rfl⟩, hhosts⟩
  | ok outcome =>
    cases outcome with
    | rejected =>
      exact ⟨⟨fun hok => Bool.noConfusion hok, fun hok => Bool.noConfusion hok,
        fun _ => ⟨context, rfl⟩, fun _ => rfl⟩, hhosts⟩
    | applied result =>
      obtain ⟨later, result⟩ := result
      have hholds : store.HoldsAt table key attempt.observed := by
        by_contra hnot
        rw [hrejected (hat.not.mpr hnot)] at hstep
        cases hstep
      have hbecomes := happlied later result hstep
      refine ⟨⟨fun _ => hholds, fun _ hkept => ?_, fun hnot => absurd hholds hnot,
        fun hfailed => Bool.noConfusion hfailed⟩, hbecomes.hosts hkeys hcounts⟩
      rw [hkept] at hbecomes
      cases hbecomes with
      | stored hkey hrevision =>
        refine ⟨_, ?_, TableSchema.storedRevision_of_get? hrevision⟩
        rw [Store.item?_eq (Store.table?_setTable _ _ _), StoredTable.find?_store _ hkey]

/-! ### Many attempts -/

omit haccepted hlocking in
/-- The attempts that succeed when they are made one after another, and the store after them. -/
def attemptAll (store : Store) : List (Attempt table key) → List (Attempt table key) × Store
  | [] => ([], store)
  | attempt :: rest =>
    if (attempt.make store).1.isOk then
      (attempt :: (attemptAll (attempt.make store).2 rest).1,
        (attemptAll (attempt.make store).2 rest).2)
    else attemptAll (attempt.make store).2 rest

/-- What a run of saves and updates leads from and to: the observed revisions of its successes
ascend from the stored revision, which in the end counts them. -/
structure Advances (key : Item) (revision : Int64) (applied : List (Attempt table key))
    (last : Store) : Prop where
  ascending : applied.Pairwise fun earlier later =>
    earlier.observed.toInt < later.observed.toInt
  bound : ∀ attempt ∈ applied, revision.toInt ≤ attempt.observed.toInt
  counted : ∃ final, last.HoldsAt table key final ∧
    final.toInt = revision.toInt + applied.length

theorem advances_attemptAll {revision : Int64} (attempts : List (Attempt table key))
    (hkept : ∀ attempt ∈ attempts, attempt.isDelete = false) (hhosts : store.Hosts table)
    (hholds : store.HoldsAt table key revision) :
    Advances key revision (attemptAll store attempts).1 (attemptAll store attempts).2 := by
  induction attempts generalizing store revision with
  | nil => exact ⟨.nil, by simp [attemptAll], revision, hholds, by simp [attemptAll]⟩
  | cons attempt rest ih =>
    obtain ⟨hrespects, hlaterHosts⟩ := attempt.respects_make haccepted hlocking hhosts
    have hrest := fun other hmem => hkept other (List.mem_cons_of_mem _ hmem)
    rw [attemptAll]
    split
    · rename_i hok
      have hobserved := hholds.unique (hrespects.applied hok)
      have hnext := hrespects.advanced hok (hkept attempt List.mem_cons_self)
      obtain ⟨hascending, hbound, final, hfinal, hcounted⟩ := ih hrest hlaterHosts hnext
      rw [attempt.toInt_next] at hbound hcounted
      rw [hobserved]
      refine ⟨List.pairwise_cons.mpr ⟨?_, hascending⟩, ?_, final, hfinal, ?_⟩
      · intro other hmem
        have := hbound other hmem
        omega
      · intro other hmem
        rcases List.mem_cons.mp hmem with rfl | hmem
        · exact Int.le_refl _
        · have := hbound other hmem
          omega
      · rw [List.length_cons]
        push_cast
        omega
    · rename_i hfailed
      have htables := hrespects.unchanged (Bool.not_eq_true _ ▸ hfailed)
      exact ih hrest hlaterHosts (hholds.of_tables_eq htables)

/-- Where nothing is stored under the key, no attempt succeeds. -/
theorem attemptAll_of_missing (attempts : List (Attempt table key)) (hhosts : store.Hosts table)
    (hmissing : store.item? table.name key = none) :
    (attemptAll store attempts).1 = [] ∧
      (attemptAll store attempts).2.item? table.name key = none := by
  induction attempts generalizing store with
  | nil => exact ⟨rfl, hmissing⟩
  | cons attempt rest ih =>
    obtain ⟨hrespects, hlaterHosts⟩ := attempt.respects_make haccepted hlocking hhosts
    have hfailed : (attempt.make store).1.isOk = false := by
      cases hok : (attempt.make store).1.isOk with
      | false => rfl
      | true =>
        obtain ⟨item, hitem, _⟩ := hrespects.applied hok
        rw [hmissing] at hitem
        cases hitem
    rw [attemptAll, hfailed]
    refine ih hlaterHosts ?_
    rw [Store.item?_of_tables_eq (hrespects.unchanged hfailed), hmissing]

end Attempts

theorem Advances.count_le_one {last : Store} {revision : Int64}
    {applied : List (Attempt table key)} (hadvances : Advances key revision applied last)
    (observed : Int64) :
    (applied.filter fun attempt => attempt.observed = observed).length ≤ 1 := by
  have hfiltered := hadvances.ascending.filter fun attempt => attempt.observed = observed
  rcases hsame : applied.filter fun attempt => attempt.observed = observed with
    _ | ⟨first, _ | ⟨second, rest⟩⟩
  · rw [hsame]
    exact Nat.zero_le 1
  · rw [hsame]
    exact Nat.le_refl 1
  · have hobserved : ∀ attempt ∈ first :: second :: rest, attempt.observed = observed := by
      intro attempt hmem
      rw [← hsame, List.mem_filter] at hmem
      exact of_decide_eq_true hmem.2
    rw [hsame] at hfiltered
    have hless := (List.pairwise_cons.mp hfiltered).1 second List.mem_cons_self
    rw [hobserved first List.mem_cons_self,
      hobserved second (List.mem_cons_of_mem _ List.mem_cons_self)] at hless
    exact absurd hless (Int.lt_irrefl _)

/-- Optimistic locking fences writes. A request with an observed revision is applied only to an item
at that revision, which a save or an update advances by one, and is a conflict that changes nothing
anywhere else. So of the saves and updates of any clients, in any order, at most one succeeds with
an observed revision, and the stored revision counts the successes. -/
theorem attempts_fenced {description : TableDescription} {store : Store}
    (hresolve : description.resolve = .ok table) (hlocking : table.optimisticLocking = true)
    (hhosts : store.Hosts table) :
    (∀ (attempt : Attempt table key) outcome later, attempt.make store = (outcome, later) →
      attempt.Respects store outcome later) ∧
    ∀ (attempts : List (Attempt table key)) applied last,
      (∀ attempt ∈ attempts, attempt.isDelete = false) →
      attemptAll store attempts = (applied, last) →
        (∀ observed, (applied.filter fun attempt => attempt.observed = observed).length ≤ 1) ∧
        (∀ initial, store.HoldsAt table key initial → ∃ final, last.HoldsAt table key final ∧
          final.toInt = initial.toInt + applied.length) ∧
        (store.item? table.name key = none →
          applied = [] ∧ last.item? table.name key = none) := by
  have haccepted := TableDescription.accepted_of_resolve hresolve
  constructor
  · intro attempt outcome later hmake
    have hrespects := (attempt.respects_make haccepted hlocking hhosts).1
    rw [hmake] at hrespects
    exact hrespects
  · intro attempts applied last hkept hall
    have hmissing := attemptAll_of_missing haccepted hlocking attempts hhosts
    have hadvances : ∀ initial, store.HoldsAt table key initial →
        Advances key initial applied last := by
      intro initial hinitial
      have hrun := advances_attemptAll haccepted hlocking attempts hkept hhosts hinitial
      rw [hall] at hrun
      exact hrun
    rw [hall] at hmissing
    refine ⟨?_, fun initial hinitial => (hadvances initial hinitial).counted, hmissing⟩
    intro observed
    rcases hhosts.missing_or_holds key with hnone | ⟨initial, hinitial⟩
    · have hempty : applied = [] := (hmissing hnone).1
      rw [hempty]
      exact Nat.zero_le 1
    · exact (hadvances initial hinitial).count_le_one observed

/-- The description of the table of readings. -/
def readingDescription : TableDescription where
  name := "readings"
  namespaceName := ""
  rootType := "Reading"
  hashKey := "name"
  rangeKey := none
  version := 1
  optimisticLocking := true
  migrations := false
  versionAttribute := none
  revisionAttribute := none
  types := [⟨"Reading", [
    ⟨"name", none, .scalar, some .string, none, true, true, false, false, false, false, false⟩,
    ⟨"level", some "l", .scalar, some .integer, none, true, true, false, false, false, false,
      false⟩]⟩]
  indexes := []

def readingItem : Item :=
  [("_rev", .number "1"), ("_v", .number "1"), ("l", .number "5"), ("name", .string "mill")]

/-- A store with one reading, at its first revision. -/
def readingStore : Store where
  tables := [("readings", ⟨⟨"name", none⟩, [], [readingItem], 1⟩)]
  calls := []
  unprocessedRounds := 0

def readingRecord : Record :=
  ⟨"Reading", [("name", .string "mill"), ("level", .number (.integer 5))], 1⟩

def LockedWrite.sends (table : TableSchema) (write : LockedWrite) : Bool :=
  match write.request? table with
  | .ok (some _) => true
  | _ => false

theorem LockedWrite.exists_request {write : LockedWrite} (hsends : write.sends table = true) :
    ∃ request, write.request? table = .ok (some request) := by
  unfold sends at hsends
  split at hsends
  · rename_i request hrequest
    exact ⟨request, hrequest⟩
  · cases hsends

/-- Two clients that read the same reading: one saves it again, the other raises its level. -/
theorem attempts_fenced_readings :
    ∃ save update : Attempt Expression.readingTable [("name", .string "mill")],
      save.write = .save readingRecord true false ∧
      update.write = .update readingRecord [⟨[], "level", .increment (.integer 1)⟩] ∧
      save.Respects readingStore (save.make readingStore).1 (save.make readingStore).2 ∧
      ∃ final, (attemptAll readingStore [save, update]).2.HoldsAt Expression.readingTable
          [("name", .string "mill")] final ∧
        final.toInt = 1 + (attemptAll readingStore [save, update]).1.length := by
  obtain ⟨put, hput⟩ := LockedWrite.exists_request
    (by decide +kernel : (LockedWrite.save readingRecord true false).sends
      Expression.readingTable = true)
  obtain ⟨change, hchange⟩ := LockedWrite.exists_request
    (by decide +kernel : (LockedWrite.update readingRecord
      [⟨[], "level", .increment (.integer 1)⟩]).sends Expression.readingTable = true)
  have hget : Item.get? readingItem Expression.readingTable.revisionAttribute =
      some (Codec.revisionAttribute 1) := by decide +kernel
  have hhosts : readingStore.Hosts Expression.readingTable := by
    refine ⟨⟨⟨"name", none⟩, [], [readingItem], 1⟩, rfl, rfl, ?_⟩
    intro item hmem
    rw [List.mem_singleton.mp hmem]
    exact TableSchema.countsRevision_of_get? hget
  have hresolve : readingDescription.resolve = .ok Expression.readingTable := rfl
  obtain ⟨hone, hall⟩ := @attempts_fenced Expression.readingTable [("name", .string "mill")]
    readingDescription readingStore hresolve rfl hhosts
  refine ⟨⟨_, put, hput, rfl, by decide, by decide⟩, ⟨_, change, hchange, rfl, by decide, by decide⟩,
    rfl, rfl, hone _ _ _ rfl, ?_⟩
  refine (hall _ _ _ ?_ rfl).2.1 1 ⟨readingItem, rfl, TableSchema.storedRevision_of_get? hget⟩
  intro attempt hmem
  rcases List.mem_cons.mp hmem with rfl | hmem
  · rfl
  · rw [List.mem_singleton.mp hmem]
    rfl

end RecordStore
