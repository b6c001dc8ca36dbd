import RecordStore.Proofs.Store.Order
import RecordStore.Store.Page

/-!
# Pages of candidates

A page reads the first of the candidates that are left, and names the key of the last one it read
while there are more. No two candidates share a key, so the next page goes on where it stopped.
-/

namespace RecordStore

open Expression (Predicate)

namespace Item

variable {item held : Item} {entries : List (String × Attribute)}

/-- Attributes taken over from an item leave only attributes of the item, and hide none. -/
theorem foldl_set_within (hentries : ∀ entry ∈ entries, get? item entry.1 = some entry.2)
    (hheld : ∀ entry ∈ held, get? item entry.1 = some entry.2) :
    (∀ entry ∈ entries.foldl (fun held entry => set held entry.1 entry.2) held,
      get? item entry.1 = some entry.2) ∧
    ∀ name, get? held name = get? item name →
      get? (entries.foldl (fun held entry => set held entry.1 entry.2) held) name =
        get? item name := by
  induction entries generalizing held with
  | nil => exact ⟨hheld, fun _ hname => hname⟩
  | cons entry rest ih =>
    have hentry := hentries entry List.mem_cons_self
    have hset : ∀ other ∈ set held entry.1 entry.2, get? item other.1 = some other.2 := by
      intro other hother
      rcases Entries.mem_insert hother with rfl | hother
      · exact hentry
      · exact hheld other hother
    obtain ⟨hwithin, hkept⟩ := ih (fun other hmem => hentries other (List.mem_cons_of_mem _ hmem)) hset
    refine ⟨hwithin, fun name hname => hkept name ?_⟩
    by_cases hsame : entry.1 = name
    · rw [← hsame, get?_set_self, hentry]
    · rw [get?_set_of_ne _ _ hsame, hname]

end Item

namespace StoredTable

variable {table : StoredTable} {index : Option String} {item other key : Item}

/-! ### Going on after an item -/

theorem pageKey_within (index : Option String) (hkey : table.keys.keyOf? item = some key) :
    (∀ entry ∈ table.pageKey index item, Item.get? item entry.1 = some entry.2) ∧
      ∀ name ∈ table.keys.attributes,
        Item.get? (table.pageKey index item) name = Item.get? item name := by
  have hown : ∀ keys : KeyNames, ∀ entry ∈ (keys.keyOf? item).getD [],
      Item.get? item entry.1 = some entry.2 := by
    intro keys entry hentry
    cases hheld : keys.keyOf? item with
    | none =>
      rw [hheld] at hentry
      exact absurd hentry List.not_mem_nil
    | some held =>
      rw [hheld] at hentry
      exact Item.hasKey_iff.mp (KeyNames.hasKey_of_keyOf? hheld) entry.1 entry.2 hentry
  have hnames : ∀ name ∈ table.keys.attributes,
      Item.get? ((table.keys.keyOf? item).getD []) name = Item.get? item name := by
    intro name hname
    rw [hkey]
    exact KeyNames.get?_eq_of_keyOf? (KeyNames.keyOf?_self hkey) hkey name hname
  unfold pageKey
  split
  · obtain ⟨hwithin, hkept⟩ := Item.foldl_set_within (hown _) (hown table.keys)
    exact ⟨hwithin, fun name hname => hkept name (hnames name hname)⟩
  · exact ⟨hown _, hnames⟩

/-- The key after which the next page starts is that of one item only. -/
theorem hasKey_pageKey_iff (index : Option String) (hkey : table.keys.keyOf? item = some key) :
    item.hasKey (table.pageKey index item) = true ∧
      ∀ other : Item, other.hasKey (table.pageKey index item) = true →
        table.keys.keyOf? other = some key := by
  obtain ⟨hwithin, hnames⟩ := pageKey_within index hkey
  refine ⟨Item.hasKey_iff.mpr fun name value hmem => hwithin (name, value) hmem, fun other hother => ?_⟩
  rw [← hkey]
  apply KeyNames.keyOf?_congr
  intro name hname
  obtain ⟨value, hvalue⟩ : ∃ value, Item.get? item name = some value := by
    obtain ⟨entries, hentries, _⟩ := Option.bind_eq_some_iff.mp hkey
    obtain ⟨value, hvalue⟩ := KeyNames.mem_entries_of_mapM hentries name hname
    exact ⟨value, KeyNames.mem_of_mapM hentries name value hvalue⟩
  have hmem : (name, value) ∈ table.pageKey index item :=
    Entries.mem_of_find? ((hnames name hname).trans hvalue)
  rw [hvalue, Item.hasKey_iff.mp hother name value hmem]

/-- Candidates have keys, and no two of them the same one. -/
structure Distinct (table : StoredTable) (candidates : List Item) : Prop where
  whole : ∀ item ∈ candidates, ∃ key, table.keys.keyOf? item = some key
  distinct : candidates.Pairwise fun first second =>
    table.keys.keyOf? first ≠ table.keys.keyOf? second

theorem Keyed.distinct_of_subperm {candidates : List Item} (hkeyed : table.Keyed)
    (hsubperm : candidates.Subperm table.items) : table.Distinct candidates := by
  obtain ⟨held, hperm, hsublist⟩ := hsubperm
  constructor
  · intro item hmem
    exact hkeyed.whole item (hsublist.subset (hperm.mem_iff.mpr hmem))
  · exact (hperm.pairwise_iff fun hne => hne.symm).mp (hkeyed.distinct.sublist hsublist)

/-- After the candidates seen the others follow. -/
theorem Distinct.startAfter_eq {candidates seen rest : List Item}
    (hdistinct : table.Distinct candidates) (hsplit : candidates = seen ++ rest) :
    startAfter candidates (seen.getLast?.map (table.pageKey index)) = .ok rest := by
  cases hlast : seen.getLast? with
  | none =>
    rw [List.getLast?_eq_none_iff.mp hlast] at hsplit
    rw [hsplit]
    rfl
  | some last =>
    obtain ⟨earlier, rfl⟩ := List.getLast?_eq_some_iff.mp hlast
    obtain ⟨key, hkey⟩ := hdistinct.whole last (by simp [hsplit])
    obtain ⟨hself, hothers⟩ := hasKey_pageKey_iff index hkey
    have hpairs := hdistinct.distinct
    rw [hsplit, List.append_assoc, List.singleton_append] at hpairs
    have hearlier : ∀ item ∈ earlier, (!item.hasKey (table.pageKey index last)) = true := by
      intro item hmem
      rw [Bool.not_eq_true', Bool.eq_false_iff]
      intro hheld
      refine (List.pairwise_append.mp hpairs).2.2 item hmem last List.mem_cons_self ?_
      rw [hothers item hheld, hkey]
    rw [Option.map_some, startAfter, hsplit, List.append_assoc, List.singleton_append,
      List.dropWhile_append_of_pos hearlier, List.dropWhile_cons_of_neg (by simp [hself])]

/-! ### One page -/

/-- A page reads the first of the candidates that are left; it names a key unless it read the last
one. -/
structure ReadsPage (table : StoredTable) (index : Option String) (keeps : Item → Bool)
    (shown : Item → Item) (following read rest : List Item) (page : Page) : Prop where
  split : following = read ++ rest
  items : page.items = (read.filter keeps).map shown
  scanned : page.scanned = read.length
  ended : rest = [] → page.lastKey = none
  more : rest ≠ [] → read ≠ [] ∧ page.lastKey = read.getLast?.map (table.pageKey index)

/-- The limits of pages, all of which let a page go on. -/
def IsLimit (limit : Option Int) : Prop :=
  ∀ most, limit = some most → 1 ≤ most

/-- How a request reads each item. -/
def ReadsAs (request : PageRequest) (keeps : Item → Bool) (shown : Item → Item) : Prop :=
  ∃ filter, request.filter.mapM (Predicate.parse request.bindings) = .ok filter ∧
    ∀ item, readItem filter request item = .ok (if keeps item then some (shown item) else none)

theorem mapM_readItem {request : PageRequest} {filter : Option Predicate} {keeps : Item → Bool}
    {shown : Item → Item} (items : List Item) (hread : ∀ item, readItem filter request item =
      .ok (if keeps item then some (shown item) else none)) :
    ∃ found, items.mapM (readItem filter request) = .ok found ∧
      found.filterMap id = (items.filter keeps).map shown := by
  induction items with
  | nil => exact ⟨[], rfl, rfl⟩
  | cons item rest ih =>
    obtain ⟨found, hfound, hkept⟩ := ih
    refine ⟨(if keeps item then some (shown item) else none) :: found, ?_, ?_⟩
    · rw [List.mapM_cons, hread, hfound]
      rfl
    · by_cases hkeeps : keeps item <;> simpa [hkeeps] using hkept

/-- The candidates that a page evaluates, of those that are left. -/
def evaluated (limit : Option Int) (following : List Item) : List Item :=
  match limit with
  | some limit => following.take limit.toNat
  | none => following

theorem exists_evaluated {limit : Option Int} (hlimit : IsLimit limit) (following : List Item) :
    ∃ rest, following = evaluated limit following ++ rest ∧
      (rest ≠ [] → evaluated limit following ≠ []) := by
  cases limit with
  | none => exact ⟨[], by simp [evaluated]⟩
  | some most =>
    refine ⟨following.drop most.toNat, by simp [evaluated], fun hrest => ?_⟩
    have hone := hlimit most rfl
    rw [ne_eq, List.drop_eq_nil_iff, Nat.not_le] at hrest
    rw [evaluated, ne_eq, List.take_eq_nil_iff, ← List.length_eq_zero_iff]
    omega

/-- The key after which the next page starts, while a page leaves more to read. -/
def nextKey (table : StoredTable) (index : Option String) (following read : List Item) :
    Option Item :=
  match read.getLast? with
  | some last => if read.length < following.length then some (table.pageKey index last) else none
  | none => none

theorem exists_page {request : PageRequest} {keeps : Item → Bool} {shown : Item → Item}
    {candidates following : List Item} (hreading : ReadsAs request keeps shown)
    (hlimit : IsLimit request.limit)
    (hstart : startAfter candidates request.start = .ok following) :
    ∃ read rest page, table.page candidates request = .ok page ∧
      table.ReadsPage request.index keeps shown following read rest page := by
  obtain ⟨filter, hparse, hread⟩ := hreading
  obtain ⟨rest, hsplit, hmore⟩ := exists_evaluated hlimit following
  generalize hevaluated : evaluated request.limit following = read at hsplit hmore
  obtain ⟨found, hfound, hkept⟩ := mapM_readItem read hread
  refine ⟨read, rest, ⟨found.filterMap id, read.length, table.nextKey request.index following read⟩,
    ?_, hsplit, hkept, rfl, ?_, ?_⟩
  · have hpage : table.page candidates request = (do
        let filter ← request.filter.mapM (Predicate.parse request.bindings)
        let items ← read.mapM (readItem filter request)
        return ⟨items.filterMap id, read.length, table.nextKey request.index following read⟩) := by
      subst hevaluated
      rw [page, hstart]
      rfl
    rw [hpage, hparse, ok_bind, hfound, ok_bind]
    rfl
  · rintro rfl
    rw [List.append_nil] at hsplit
    subst hsplit
    cases hlast : following.getLast? <;> simp [nextKey, hlast]
  · intro hrest
    have hnonempty := hmore hrest
    have hless : read.length < following.length := by
      rw [hsplit, List.length_append]
      have := List.length_pos_iff.mpr hrest
      omega
    refine ⟨hnonempty, ?_⟩
    simp [nextKey, List.getLast?_eq_some_getLast hnonempty, hless]

theorem mem_startAfter {candidates following : List Item} {start : Option Item}
    (hstart : startAfter candidates start = .ok following) {item : Item} (hmem : item ∈ following) :
    item ∈ candidates := by
  unfold startAfter at hstart
  split at hstart
  · cases hstart
    exact hmem
  · split at hstart
    · rename_i found rest hdropped
      cases hstart
      have hwhole : item ∈ found :: following := List.mem_cons_of_mem _ hmem
      rw [← hdropped] at hwhole
      exact (List.dropWhile_sublist _).subset hwhole
    · cases hstart

/-- Whatever its limit is, a page holds candidates that are kept. -/
theorem mem_page {request : PageRequest} {keeps : Item → Bool} {shown : Item → Item}
    {candidates : List Item} {page : Page} (hreading : ReadsAs request keeps shown)
    (hpage : table.page candidates request = .ok page) {item : Item} (hmem : item ∈ page.items) :
    ∃ candidate ∈ candidates, keeps candidate = true ∧ item = shown candidate := by
  obtain ⟨filter, hparse, hread⟩ := hreading
  obtain ⟨following, hstart, hpage⟩ := bind_eq_ok_iff.mp hpage
  rw [hparse, ok_bind] at hpage
  obtain ⟨found, hfound, hkept⟩ := mapM_readItem (evaluated request.limit following) hread
  obtain ⟨items, hitems, hdone⟩ := bind_eq_ok_iff.mp hpage
  cases hfound.symm.trans hitems
  cases hdone
  change item ∈ found.filterMap id at hmem
  rw [hkept] at hmem
  obtain ⟨candidate, hcandidate, rfl⟩ := List.mem_map.mp hmem
  obtain ⟨hevaluated, hkeeps⟩ := List.mem_filter.mp hcandidate
  refine ⟨candidate, mem_startAfter hstart ?_, hkeeps, rfl⟩
  unfold evaluated at hevaluated
  split at hevaluated
  · exact List.mem_of_mem_take hevaluated
  · exact hevaluated

/-! ### Candidates -/

/-- Items by the order of their range keys, or the other way round. -/
def inOrder (keys : KeyNames) (ascends : Item → Item → Bool) (forward : Bool)
    (selected : List Item) : List Item :=
  let sorted := if keys.range.isSome then selected.mergeSort ascends else selected
  if forward then sorted else sorted.reverse

theorem perm_inOrder (keys : KeyNames) (ascends : Item → Item → Bool) (forward : Bool)
    (selected : List Item) : (inOrder keys ascends forward selected).Perm selected := by
  have hsorted : (if keys.range.isSome then selected.mergeSort ascends else selected).Perm
      selected := by
    split
    · exact List.mergeSort_perm _ _
    · rfl
  unfold inOrder
  cases forward with
  | true => exact hsorted
  | false => exact (List.reverse_perm _).trans hsorted

/-- The items that a key condition selects, before they are ordered. -/
theorem filterM_selects {keys : KeyNames} {condition : Predicate} {selects : Item → Bool}
    (hselects : ∀ item, condition.holds item = .ok (selects item)) :
    (table.items.filter (hasAllKeys keys)).filterM (fun item => condition.holds item) =
      .ok (table.items.filter fun item => hasAllKeys keys item && selects item) := by
  have hcollect : ∀ items held : List Item, items.filterAuxM (fun item => condition.holds item) held =
      .ok ((items.filter selects).reverse ++ held) := by
    intro items
    induction items with
    | nil => exact fun _ => rfl
    | cons item rest ih =>
      intro held
      rw [List.filterAuxM, hselects, ok_bind, ih]
      cases hitem : selects item <;> simp [hitem]
  rw [List.filterM, hcollect, ok_bind, List.append_nil, List.reverse_reverse, List.filter_filter]
  simp only [Bool.and_comm]
  rfl

theorem mem_of_filterM {select : Item → Except Expression.Fault Bool} {items selected : List Item}
    (hselect : items.filterM select = .ok selected) {item : Item} (hmem : item ∈ selected) :
    item ∈ items := by
  have hcollect : ∀ (items held collected : List Item),
      items.filterAuxM select held = .ok collected → item ∈ collected →
      item ∈ items ∨ item ∈ held := by
    intro items
    induction items with
    | nil =>
      intro held collected hdone hmem
      cases hdone
      exact .inr hmem
    | cons first rest ih =>
      intro held collected hrun hmem
      obtain ⟨keep, _, hrun⟩ := bind_eq_ok_iff.mp hrun
      rcases ih _ _ hrun hmem with hrest | hheld
      · exact .inl (List.mem_cons_of_mem _ hrest)
      · cases keep with
        | false => exact .inr hheld
        | true =>
          rcases List.mem_cons.mp hheld with rfl | hheld
          · exact .inl List.mem_cons_self
          · exact .inr hheld
  obtain ⟨collected, hrun, hdone⟩ := bind_eq_ok_iff.mp hselect
  cases hdone
  exact (hcollect items [] collected hrun (List.mem_reverse.mp hmem)).resolve_right (by simp)

/-- Items in the order of their range keys, if they have any. -/
def ordered (keys : KeyNames) (items : List Item) : List Item :=
  match keys.range with
  | some range => sortItems (rangePrecedes range) items
  | none => items

theorem perm_ordered (keys : KeyNames) (items : List Item) : (ordered keys items).Perm items := by
  unfold ordered
  split
  · exact perm_sortItems _ _
  · rfl

/-- Whatever a key condition is, it selects items of the table. -/
theorem mem_select {keys : KeyNames} {condition : Predicate} {forward : Bool} {selected : List Item}
    (hselect : table.select keys condition forward = .ok selected) {item : Item}
    (hmem : item ∈ selected) : item ∈ table.items := by
  obtain ⟨kept, hkept, hdone⟩ := bind_eq_ok_iff.mp hselect
  have hordered : item ∈ ordered keys kept := by
    cases hdone
    cases forward with
    | true => exact hmem
    | false => exact List.mem_reverse.mp hmem
  exact List.mem_of_mem_filter (mem_of_filterM hkept ((perm_ordered _ _).mem_iff.mp hordered))

theorem exists_select {keys : KeyNames} {condition : Predicate} {selects : Item → Bool}
    (forward : Bool) (hselects : ∀ item, condition.holds item = .ok (selects item)) :
    ∃ selected, table.select keys condition forward = .ok selected ∧
      selected.Perm (table.items.filter fun item => hasAllKeys keys item && selects item) := by
  rw [select, filterM_selects hselects, ok_bind]
  cases forward with
  | true => exact ⟨_, rfl, perm_ordered _ _⟩
  | false => exact ⟨_, rfl, (List.reverse_perm _).trans (perm_ordered _ _)⟩

theorem select_eq {keys : KeyNames} {condition : Predicate} {selects : Item → Bool}
    {ascends : Item → Item → Bool} (forward : Bool)
    (hselects : ∀ item, condition.holds item = .ok (selects item))
    (horder : ∀ range, keys.range = some range → RangeOrder range table.items ascends) :
    table.select keys condition forward = .ok (inOrder keys ascends forward
      (table.items.filter fun item => hasAllKeys keys item && selects item)) := by
  have hsort : ∀ range, keys.range = some range → ∀ selected : List Item,
      (∀ item ∈ selected, item ∈ table.items ∧ hasAllKeys keys item = true) →
      sortItems (rangePrecedes range) selected = selected.mergeSort ascends := by
    intro range hrange selected hselected
    have hitems := horder range hrange
    have hheld : ∀ item ∈ selected, (Item.get? item range).isSome := by
      intro item hmem
      obtain ⟨key, hkey⟩ := Option.isSome_iff_exists.mp (hselected item hmem).2
      obtain ⟨entries, hentries, _⟩ := Option.bind_eq_some_iff.mp hkey
      obtain ⟨value, hvalue⟩ := KeyNames.mem_entries_of_mapM hentries range
        (by simp [KeyNames.attributes, hrange])
      rw [KeyNames.mem_of_mapM hentries range value hvalue]
      rfl
    refine sortItems_eq_mergeSort hitems.trans hitems.total fun one hone other hother => ?_
    exact hitems.rangePrecedes (hselected one hone).1 (hselected other hother).1 (hheld one hone)
      (hheld other hother)
  rw [select, filterM_selects hselects, ok_bind, inOrder]
  cases hrange : keys.range with
  | none => rfl
  | some range =>
    rw [← hsort range hrange _ fun item hmem => ?_]
    · rfl
    · obtain ⟨hheld, hboth⟩ := List.mem_filter.mp hmem
      exact ⟨hheld, (Bool.and_eq_true_iff.mp hboth).1⟩

theorem segment_eq (table : StoredTable) (keys : KeyNames) (segment total : Nat) :
    table.segment keys segment total = (table.items.zipIdx.filter fun entry =>
      decide (entry.2 % total = segment) && hasAllKeys keys entry.1).map Prod.fst := rfl

theorem sublist_segment (table : StoredTable) (keys : KeyNames) (segment total : Nat) :
    (table.segment keys segment total).Sublist table.items := by
  have hfilter := (@List.filter_sublist _ (fun entry : Item × Nat =>
    decide (entry.2 % total = segment) && hasAllKeys keys entry.1) table.items.zipIdx).map Prod.fst
  rwa [List.zipIdx_map_fst, ← segment_eq] at hfilter

theorem filter_hasAllKeys (table : StoredTable) (keys : KeyNames) :
    table.items.filter (hasAllKeys keys) =
      (table.items.zipIdx.filter fun entry => hasAllKeys keys entry.1).map Prod.fst := by
  have hitems := List.filter_map (p := hasAllKeys keys) (f := Prod.fst) (l := table.items.zipIdx)
  rwa [List.zipIdx_map_fst] at hitems

/-- A single segment holds every item that has the key attributes. -/
theorem segment_one (table : StoredTable) (keys : KeyNames) :
    table.segment keys 0 1 = table.items.filter (hasAllKeys keys) := by
  rw [filter_hasAllKeys, segment]
  simp only [Nat.mod_one, decide_true, Bool.true_and]

/-- Segments divide the items among them. -/
theorem perm_segments (table : StoredTable) (keys : KeyNames) {total : Nat} (htotal : 0 < total) :
    ((List.range total).flatMap fun segment => table.segment keys segment total).Perm
      (table.items.filter (hasAllKeys keys)) := by
  have hbelow : ∀ bound : Nat, ((List.range bound).flatMap fun segment =>
      table.segment keys segment total).Perm ((table.items.zipIdx.filter fun entry =>
        decide (entry.2 % total < bound) && hasAllKeys keys entry.1).map Prod.fst) := by
    intro bound
    induction bound with
    | zero => simp
    | succ bound ih =>
      rw [List.range_succ, List.flatMap_append, List.flatMap_singleton, segment_eq]
      have hdivide := List.filter_append_perm (fun entry : Item × Nat => entry.2 % total < bound)
        (table.items.zipIdx.filter fun entry =>
          decide (entry.2 % total < bound + 1) && hasAllKeys keys entry.1)
      have hlow : ∀ entry : Item × Nat, (decide (entry.2 % total < bound) &&
          (decide (entry.2 % total < bound + 1) && hasAllKeys keys entry.1)) =
          (decide (entry.2 % total < bound) && hasAllKeys keys entry.1) := by
        intro entry
        by_cases hless : entry.2 % total < bound
        · simp [hless, Nat.lt_succ_of_lt hless]
        · simp [hless]
      have hhigh : ∀ entry : Item × Nat, (!decide (entry.2 % total < bound) &&
          (decide (entry.2 % total < bound + 1) && hasAllKeys keys entry.1)) =
          (decide (entry.2 % total = bound) && hasAllKeys keys entry.1) := by
        intro entry
        by_cases hsame : entry.2 % total = bound
        · simp [hsame]
        · by_cases hless : entry.2 % total < bound
          · simp [hsame, hless]
          · have hmore : ¬ entry.2 % total < bound + 1 := by omega
            simp [hsame, hmore]
      rw [List.filter_filter, List.filter_filter, funext hlow, funext hhigh] at hdivide
      have hmap := hdivide.map Prod.fst
      rw [List.map_append] at hmap
      exact (ih.append_right _).trans hmap
  have hall := hbelow total
  simp only [Nat.mod_lt _ htotal, decide_true, Bool.true_and] at hall
  rwa [← filter_hasAllKeys] at hall

end StoredTable

end RecordStore
