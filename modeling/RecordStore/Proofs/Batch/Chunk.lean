import Mathlib
import RecordStore.Client.Batch
import RecordStore.Proofs.Entries

/-!
# Chunks of batches

A batch is cut into consecutive runs, and each run is gathered by its tables. Neither loses a
request, and the requests for one table stay in their order.
-/

namespace RecordStore

/-! ### Counting entries -/

namespace Entries

variable {α : Type} {entries : List (String × List α)}

/-- What is held under a name, nothing when there is no entry. -/
def under (entries : List (String × List α)) (name : String) : List α :=
  (find? entries name).getD []

theorem under_cons (key : String) (items : List α) (rest : List (String × List α)) (name : String) :
    under ((key, items) :: rest) name = if key = name then items else under rest name := by
  unfold under
  rw [find?_cons]
  split <;> rfl

theorem under_insert (name : String) (items : List α) (other : String) :
    under (insert entries name items) other = if name = other then items else under entries other := by
  unfold under
  rw [find?_insert]
  split <;> rfl

theorem under_put (name : String) (items : List α) (other : String) :
    under (put entries name items) other = if name = other then items else under entries other := by
  unfold under
  rw [find?_put]
  split <;> rfl

theorem under_of_fresh {name : String} (hfresh : ∀ entry ∈ entries, entry.1 ≠ name) :
    under entries name = [] := by
  rw [under, find?_eq_none_iff.mpr hfresh]
  rfl

theorem count_insert (hascending : Ascending entries) (name : String) (items : List α) :
    count (insert entries name items) + (under entries name).length =
      count entries + items.length := by
  induction entries with
  | nil => simp [insert, count, under]
  | cons first rest ih =>
    obtain ⟨key, held⟩ := first
    obtain ⟨hfirst, hrest⟩ := List.pairwise_cons.mp hascending
    unfold insert
    rw [under_cons]
    by_cases hless : name < key
    · have hne : key ≠ name := fun hsame => String.lt_irrefl _ (hsame ▸ hless)
      have hfresh : ∀ entry ∈ rest, entry.1 ≠ name := fun entry hmem hsame =>
        String.lt_asymm hless (hsame ▸ hfirst entry hmem)
      rw [if_pos hless, if_neg hne, under_of_fresh hfresh]
      simp only [count, List.length_nil]
      omega
    · by_cases hsame : key = name
      · rw [if_neg hless, if_pos hsame, if_pos hsame]
        simp only [count]
        omega
      · rw [if_neg hless, if_neg hsame, if_neg hsame]
        have hcount := ih hrest
        simp only [count]
        omega

end Entries

namespace Batch

open Entries (under)

variable {α : Type}

/-! ### Runs -/

/-- A list cut into consecutive runs of a size, of which only the last may be shorter. -/
structure Cut (size : Nat) (list : List α) (runs : List (List α)) : Prop where
  flatten : runs.flatten = list
  full : ∀ run ∈ runs.dropLast, run.length = size
  bounded : ∀ run ∈ runs, 1 ≤ run.length ∧ run.length ≤ size

theorem chunks_nil {size : Nat} (hsize : 0 < size) : chunks size ([] : List α) = [] := by
  have hcount : (([] : List α).length + size - 1) / size = 0 :=
    Nat.div_eq_of_lt (by simp only [List.length_nil]; omega)
  rw [chunks, hcount]
  rfl

theorem chunks_of_ne_nil {size : Nat} (hsize : 0 < size) {list : List α} (hlist : list ≠ []) :
    chunks size list = list.take size :: chunks size (list.drop size) := by
  have hpos : 0 < list.length := List.length_pos_iff.mpr hlist
  -- One run is gone when a whole size is dropped, and also when less than that was left.
  have hcount : (list.length + size - 1) / size =
      ((list.drop size).length + size - 1) / size + 1 := by
    rw [List.length_drop]
    by_cases hless : list.length < size
    · rw [Nat.sub_eq_zero_of_le (Nat.le_of_lt hless), Nat.zero_add,
        Nat.div_eq_of_lt (Nat.sub_lt hsize Nat.one_pos)]
      exact Nat.div_eq_of_lt_le (by omega) (by omega)
    · have hsplit : list.length + size - 1 = list.length - size + size - 1 + size := by omega
      rw [hsplit, Nat.add_div_right _ hsize]
  rw [chunks, hcount, List.range_succ_eq_map, List.map_cons, List.map_map, Nat.zero_mul,
    List.drop_zero, chunks]
  refine congrArg _ (List.map_congr_left fun position _ => ?_)
  simp only [Function.comp_apply, Nat.succ_mul, List.drop_drop, Nat.add_comm]

theorem cut_chunks {size : Nat} (hsize : 0 < size) (list : List α) :
    Cut size list (chunks size list) := by
  induction hlength : list.length using Nat.strongRecOn generalizing list with
  | ind length ih =>
    by_cases hlist : list = []
    · rw [hlist, chunks_nil hsize]
      exact ⟨rfl, by simp, by simp⟩
    · have hpos : 0 < list.length := List.length_pos_iff.mpr hlist
      have hrest := ih (list.drop size).length (by rw [List.length_drop]; omega)
        (list.drop size) rfl
      rw [chunks_of_ne_nil hsize hlist]
      constructor
      · rw [List.flatten_cons, hrest.flatten, List.take_append_drop]
      · intro run hmem
        by_cases hlast : chunks size (list.drop size) = []
        · rw [hlast] at hmem
          cases hmem
        · rw [List.dropLast_cons_of_ne_nil hlast] at hmem
          rcases List.mem_cons.mp hmem with rfl | hmem
          · -- Something is left after the first run, which is full then.
            have hleft : list.drop size ≠ [] := by
              intro hnone
              rw [hnone, chunks_nil hsize] at hlast
              exact hlast rfl
            have hmore := List.length_pos_iff.mpr hleft
            rw [List.length_drop] at hmore
            rw [List.length_take]
            omega
          · exact hrest.full run hmem
      · intro run hmem
        rcases List.mem_cons.mp hmem with rfl | hmem
        · rw [List.length_take]
          omega
        · exact hrest.bounded run hmem

/-- Fifty-seven requests take three calls. -/
example : (chunks maxBatchWrites (List.range 57)).map List.length = [25, 25, 7] := by decide

/-! ### Requests by table -/

/-- The requests for a table, in their order. -/
def requestsFor (name : String) (requests : List (String × α)) : List α :=
  (requests.filter fun request => request.1 = name).map Prod.snd

theorem requestsFor_append (name : String) (first second : List (String × α)) :
    requestsFor name (first ++ second) = requestsFor name first ++ requestsFor name second := by
  rw [requestsFor, List.filter_append, List.map_append]
  rfl

theorem requestsFor_singleton (name : String) (request : String × α) :
    requestsFor name [request] = if request.1 = name then [request.2] else [] := by
  by_cases hname : request.1 = name <;> simp [requestsFor, hname]

theorem requestsFor_of_all {name : String} {requests : List (String × α)}
    (hall : ∀ request ∈ requests, request.1 = name) :
    requestsFor name requests = requests.map Prod.snd := by
  rw [requestsFor, List.filter_eq_self.mpr fun request hmem => decide_eq_true (hall request hmem)]

theorem requestsFor_of_none {name : String} {requests : List (String × α)}
    (hnone : ∀ request ∈ requests, request.1 ≠ name) : requestsFor name requests = [] := by
  rw [requestsFor, List.filter_eq_nil_iff.mpr]
  · rfl
  · simpa using hnone

theorem mem_requestsFor {name : String} {requests : List (String × α)} {entry : α} :
    entry ∈ requestsFor name requests ↔ (name, entry) ∈ requests := by
  simp [requestsFor]

/-- Groups of requests, none of which is empty, under ascending names. -/
structure Grouped (groups : List (String × List α)) : Prop where
  ascending : Entries.Ascending groups
  nonempty : ∀ group ∈ groups, group.2 ≠ []

/-- The groups hold the given requests. -/
structure Gathers (requests : List (String × α)) (groups : List (String × List α)) : Prop
    extends Grouped groups where
  under : ∀ name, under groups name = requestsFor name requests
  count : Entries.count groups = requests.length

theorem Gathers.insert {requests : List (String × α)} {groups : List (String × List α)}
    (hgathers : Gathers requests groups) (request : String × α) :
    Gathers (requests ++ [request])
      (Entries.insert groups request.1 (Entries.under groups request.1 ++ [request.2])) where
  ascending := hgathers.ascending.insert _ _
  nonempty := by
    intro group hmem
    rcases Entries.mem_insert hmem with rfl | hmem
    · simp
    · exact hgathers.nonempty group hmem
  under := by
    intro name
    rw [Entries.under_insert, requestsFor_append, requestsFor_singleton, ← hgathers.under name]
    by_cases hname : request.1 = name
    · rw [if_pos hname, if_pos hname, hname]
    · rw [if_neg hname, if_neg hname, List.append_nil]
  count := by
    have hcount := Entries.count_insert hgathers.ascending request.1
      (Entries.under groups request.1 ++ [request.2])
    have hbefore := hgathers.count
    simp only [List.length_append, List.length_singleton] at hcount ⊢
    omega

theorem gathers_byTable (requests : List (String × α)) : Gathers requests (byTable requests) := by
  induction requests using List.reverseRecOn with
  | nil => exact ⟨⟨.nil, by simp [byTable]⟩, fun name => rfl, rfl⟩
  | append_singleton requests request ih =>
    have hstep : byTable (requests ++ [request]) = Entries.insert (byTable requests) request.1
        (Entries.under (byTable requests) request.1 ++ [request.2]) := List.foldl_concat ..
    rw [hstep]
    exact ih.insert request

theorem mem_of_mem_byTable {run : List (String × α)} {group : String × List α}
    (hmem : group ∈ byTable run) {request : α} (hrequest : request ∈ group.2) :
    (group.1, request) ∈ run := by
  have hgathers := gathers_byTable run
  have hgroup : Entries.under (byTable run) group.1 = group.2 := by
    rw [Entries.under, Entries.find?_of_mem hgathers.ascending.nodup hmem]
    rfl
  rw [← hgroup, hgathers.under] at hrequest
  exact mem_requestsFor.mp hrequest

theorem byTable_ne_nil {run : List (String × α)} (hrun : run ≠ []) :
    byTable run ≠ [] := by
  intro hnone
  have hcount := (gathers_byTable run).count
  rw [hnone] at hcount
  exact hrun (List.length_eq_zero_iff.mp hcount.symm)

end Batch

end RecordStore
