import RecordStore.Proofs.Outcome
import RecordStore.Proofs.Record.Same
import RecordStore.Update.Mutation

/-!
# Changes that collect

A delta stands for the changes that it collected. For each kind of delta a relation tells what the
delta leaves of a value, and one more change to the delta is the same change to what it leaves.
-/

namespace RecordStore

/-! ### Amounts -/

/-- Numbers of the type are integral, and their sums wrap around. -/
def ElementType.IsWhole (element : ElementType) : Prop :=
  element = .integer ∨ element = .long

/-- Something that an amount can be added to. -/
def Value.IsNumber : Value → Prop
  | .null | .number _ => True
  | _ => False

section Amounts

variable {element : ElementType} {base value : Value} {pending amount : Number}

theorem Number.add_narrow (hwhole : element.IsWhole) (left right : Number) :
    left.add (right.narrow element) element = left.add right element := by
  rcases hwhole with rfl | rfl <;> simp [Number.add, Number.narrow, Number.toInt64]

theorem Number.add_add (hwhole : element.IsWhole) (left pending amount : Number) :
    left.add (pending.add amount element) element =
      (left.add pending element).add amount element := by
  rcases hwhole with rfl | rfl <;>
    simp [Number.add, Number.toInt64, Int32.add_assoc, Int64.add_assoc]

theorem exists_addAmount (hbase : base.IsNumber) (amount : Number) (element : ElementType) :
    ∃ number, addAmount base amount element = .ok (.number number) := by
  cases base with
  | null => exact ⟨_, rfl⟩
  | number number => exact ⟨_, rfl⟩
  | _ => exact hbase.elim

theorem exists_of_addAmount (hadd : addAmount base amount element = .ok value) :
    ∃ number, value = .number number := by
  cases base with
  | null | number => exact ⟨_, (Except.ok.inj hadd).symm⟩
  | _ => cases hadd

theorem addAmount_narrow (hwhole : element.IsWhole) (base : Value) (amount : Number) :
    addAmount base (amount.narrow element) element = addAmount base amount element := by
  cases base <;> simp [addAmount, Number.add_narrow hwhole]

/-- Amounts may be added up before they are added. -/
theorem addAmount_add (hwhole : element.IsWhole)
    (hadd : addAmount base pending element = .ok value) (amount : Number) :
    addAmount base (pending.add amount element) element = addAmount value amount element := by
  cases base with
  | null | number =>
    cases hadd
    simp [addAmount, Number.add_add hwhole]
  | _ => cases hadd

end Amounts

/-! ### Scalars -/

/-- What is left of a scalar once its delta is merged. -/
inductive ScalarDelta.Leaves (type : ValueType) (base : Value) : ScalarDelta → Value → Prop where
  | remove : Leaves type base .ofRemove .null
  | set (value : Value) : Leaves type base (.ofSet value) value
  | amount {element : ElementType} {amount : Number} {value : Value}
    (declared : type = .scalar element) (whole : element.IsWhole)
    (add : addAmount base amount element = .ok value) : Leaves type base (.ofAmount amount) value

namespace ScalarDelta

variable {type : ValueType} {element : ElementType} {base value : Value} {delta later : ScalarDelta}
  {amount : Number}

theorem Leaves.merge (hleaves : delta.Leaves type base value)
    (helement : type.requireElement = .ok element) : delta.merge base element = .ok value := by
  cases hleaves with
  | remove => rfl
  | set value => rfl
  | amount hdeclared _ hadd =>
    subst hdeclared
    cases helement
    exact hadd

/-- Adding to what is pending adds to what it leaves. -/
theorem Leaves.increment (hleaves : delta.Leaves (.scalar element) base value)
    (hwhole : element.IsWhole) (hstep : delta.increment amount element = .ok later) :
    ∃ next, addAmount value amount element = .ok next ∧
      later.Leaves (.scalar element) base next := by
  cases hleaves with
  | remove =>
    cases hstep
    exact ⟨_, rfl, .set _⟩
  | set value =>
    obtain ⟨next, hadd, hlater⟩ := bind_eq_ok_iff.mp hstep
    cases hlater
    exact ⟨next, hadd, .set next⟩
  | @amount _ pending _ hdeclared _ hadd =>
    cases hdeclared
    cases hstep
    obtain ⟨number, rfl⟩ := exists_of_addAmount hadd
    exact ⟨_, rfl, .amount rfl hwhole (addAmount_add hwhole hadd amount)⟩

theorem increment_none (hbase : base.IsNumber) (hwhole : element.IsWhole)
    (hstep : ScalarDelta.none.increment amount element = .ok later) :
    ∃ next, addAmount base amount element = .ok next ∧
      later.Leaves (.scalar element) base next := by
  cases hstep
  obtain ⟨number, hadd⟩ := exists_addAmount hbase amount element
  exact ⟨_, hadd, .amount rfl hwhole ((addAmount_narrow hwhole base amount).trans hadd)⟩

end ScalarDelta

/-! ### Maps -/

namespace MapDelta

variable {delta later : MapDelta} {element : ElementType}

/-- No key is written, added to or deleted at once. -/
structure Apart (delta : MapDelta) : Prop where
  updates_amounts : (Entries.names delta.updates).Disjoint (Entries.names delta.amounts)
  updates_deletes : (Entries.names delta.updates).Disjoint delta.deletes
  amounts_deletes : (Entries.names delta.amounts).Disjoint delta.deletes

/-- What the delta leaves under a key that held an entry, or none. -/
def entryAfter (delta : MapDelta) (element : ElementType) (key : String) (held : Option Value) :
    Except Error (Option Value) :=
  if key ∈ delta.deletes then .ok .none
  else
    match Entries.find? delta.updates key, Entries.find? delta.amounts key with
    | some value, _ => .ok (some value)
    | .none, some amount => (addAmount (held.getD .null) amount element).map some
    | .none, .none => .ok held

/-- What is left of a map once its delta is merged, up to the order of the entries. -/
structure Leaves (element : ElementType) (base : List (String × Value)) (delta : MapDelta)
    (left : List (String × Value)) : Prop where
  amounts : (Entries.names delta.amounts).Nodup
  updates : (Entries.names delta.updates).Nodup
  deletes : delta.deletes.Nodup
  apart : delta.Apart
  names : (Entries.names left).Nodup
  entry : ∀ key, delta.entryAfter element key (Entries.find? base key) =
    .ok (Entries.find? left key)

theorem leaves_empty {entries : List (String × Value)} (hnames : (Entries.names entries).Nodup)
    (clear : Bool) : (⟨[], [], [], clear⟩ : MapDelta).Leaves element entries entries where
  amounts := List.nodup_nil
  updates := List.nodup_nil
  deletes := List.nodup_nil
  apart := ⟨List.disjoint_nil_left _, List.disjoint_nil_left _, List.disjoint_nil_left _⟩
  names := hnames
  entry _ := rfl

/-! #### Merging -/

theorem addAll_ok {updates entries merged : List (String × Value)}
    {amounts : List (String × Number)} (hnames : (Entries.names amounts).Nodup)
    (hadd : amounts.foldlM (addTo element updates) entries = .ok merged)
    (hentries : (Entries.names entries).Nodup) :
    (Entries.names merged).Nodup ∧ ∀ key,
      (match Entries.find? updates key, Entries.find? amounts key with
        | .none, some amount =>
          (addAmount ((Entries.find? entries key).getD .null) amount element).map some
        | _, _ => .ok (Entries.find? entries key)) = .ok (Entries.find? merged key) := by
  induction amounts generalizing entries with
  | nil =>
    cases hadd
    refine ⟨hentries, fun key => ?_⟩
    cases Entries.find? updates key <;> rfl
  | cons amount rest ih =>
    obtain ⟨name, amount⟩ := amount
    obtain ⟨hfresh, hrest⟩ := List.nodup_cons.mp hnames
    obtain ⟨between, hfirst, hothers⟩ := bind_eq_ok_iff.mp hadd
    have hnone : Entries.find? rest name = .none := by
      by_contra hsome
      exact hfresh (Entries.mem_names_iff.mpr hsome)
    unfold addTo at hfirst
    split at hfirst
    · rename_i hupdated
      cases hfirst
      obtain ⟨hmerged, hkeys⟩ := ih hrest hothers hentries
      refine ⟨hmerged, fun key => ?_⟩
      rw [← hkeys key, Entries.find?_cons]
      by_cases hkey : name = key
      · obtain ⟨value, hvalue⟩ := Option.isSome_iff_exists.mp hupdated
        rw [← hkey, hvalue]
      · rw [if_neg hkey]
    · rename_i hupdated
      obtain ⟨value, hvalue, rfl⟩ := map_eq_ok_iff.mp hfirst
      obtain ⟨hmerged, hkeys⟩ := ih hrest hothers (Entries.nodup_put hentries name value)
      refine ⟨hmerged, fun key => ?_⟩
      have hthis := hkeys key
      rw [Entries.find?_put] at hthis
      rw [← hthis, Entries.find?_cons]
      by_cases hkey : name = key
      · have hnotUpdated : Entries.find? updates name = .none := by
          simpa [Entries.contains] using hupdated
        subst hkey
        simp [hnotUpdated, hnone, hvalue, Except.map]
      · simp [hkey]

theorem merge_ok {base value : Value} (hamounts : (Entries.names delta.amounts).Nodup)
    (hupdates : (Entries.names delta.updates).Nodup) {entries : List (String × Value)}
    (hbase : delta.baseEntries base = .ok entries) (hentries : (Entries.names entries).Nodup)
    (hmerge : delta.merge base element = .ok value) :
    ∃ merged, value = .map merged ∧ (Entries.names merged).Nodup ∧
      ∀ key, delta.entryAfter element key (Entries.find? entries key) =
        .ok (Entries.find? merged key) := by
  obtain ⟨_, hsame, hmerge⟩ := bind_eq_ok_iff.mp hmerge
  cases hbase.symm.trans hsame
  obtain ⟨added, hadded, hvalue⟩ := bind_eq_ok_iff.mp hmerge
  cases hvalue
  obtain ⟨hnames, hkeys⟩ := addAll_ok hamounts hadded (Entries.nodup_putAll delta.updates hentries)
  refine ⟨_, rfl, Entries.nodup_filter hnames _, fun key => ?_⟩
  rw [Entries.find?_filter added (fun name => !delta.deletes.contains name), entryAfter]
  have hkey := hkeys key
  rw [Entries.find?_putAll hupdates] at hkey
  by_cases hdeleted : key ∈ delta.deletes
  · simp [hdeleted]
  · have hkept : (!delta.deletes.contains key) = true := by simpa using hdeleted
    rw [if_neg hdeleted, if_pos hkept, ← hkey]
    cases Entries.find? delta.updates key <;> cases Entries.find? delta.amounts key <;> rfl

/-! #### One more change -/

section Changes

variable {base left : List (String × Value)} {key : String} {amount : Number}

theorem Apart.putEntry (hapart : delta.Apart) (hdeletes : delta.deletes.Nodup) (key : String)
    (value : Value) : (delta.putEntry key value).Apart := by
  obtain ⟨hamounts, hdeleted, hothers⟩ := hapart
  constructor <;> intro name <;> simp only [MapDelta.putEntry, Entries.mem_names_put,
    Entries.mem_names_erase, hdeletes.mem_erase_iff]
  · have := @hamounts name
    tauto
  · have := @hdeleted name
    tauto
  · have := @hothers name
    tauto

theorem Leaves.putEntry (hleaves : delta.Leaves element base left) (key : String) (value : Value) :
    (delta.putEntry key value).Leaves element base (Entries.put left key value) where
  amounts := Entries.nodup_erase hleaves.amounts key
  updates := Entries.nodup_put hleaves.updates key value
  deletes := hleaves.deletes.erase key
  apart := hleaves.apart.putEntry hleaves.deletes key value
  names := Entries.nodup_put hleaves.names key value
  entry := by
    intro name
    have hname := hleaves.entry name
    unfold entryAfter at hname ⊢
    simp only [MapDelta.putEntry, hleaves.deletes.mem_erase_iff, Entries.find?_put,
      Entries.find?_erase]
    by_cases hkey : key = name
    · simp [hkey]
    · simpa [hkey, Ne.symm hkey] using hname

theorem mem_deletes_deleteEntry {name : String} :
    name ∈ (delta.deleteEntry key).deletes ↔ name = key ∨ name ∈ delta.deletes := by
  by_cases hdeleted : key ∈ delta.deletes
  · simp only [MapDelta.deleteEntry, List.contains_iff_mem, hdeleted, if_true]
    exact ⟨.inr, fun hname => hname.elim (fun hsame => hsame ▸ hdeleted) id⟩
  · simp [MapDelta.deleteEntry, hdeleted, or_comm]

theorem Apart.deleteEntry (hapart : delta.Apart) (key : String) : (delta.deleteEntry key).Apart := by
  obtain ⟨hamounts, hdeleted, hothers⟩ := hapart
  constructor <;> intro name hfirst hsecond <;>
    obtain ⟨hne, hfirst⟩ := Entries.mem_names_erase.mp hfirst
  · exact hamounts hfirst (Entries.mem_names_erase.mp hsecond).2
  · exact hdeleted hfirst ((mem_deletes_deleteEntry.mp hsecond).resolve_left hne)
  · exact hothers hfirst ((mem_deletes_deleteEntry.mp hsecond).resolve_left hne)

theorem nodup_deletes_deleteEntry (hdeletes : delta.deletes.Nodup) (key : String) :
    (delta.deleteEntry key).deletes.Nodup := by
  by_cases hdeleted : key ∈ delta.deletes
  · simpa [MapDelta.deleteEntry, hdeleted] using hdeletes
  · simpa [MapDelta.deleteEntry, hdeleted] using hdeletes.concat hdeleted

theorem Leaves.deleteEntry (hleaves : delta.Leaves element base left) (key : String) :
    (delta.deleteEntry key).Leaves element base (Entries.erase left key) where
  amounts := Entries.nodup_erase hleaves.amounts key
  updates := Entries.nodup_erase hleaves.updates key
  deletes := nodup_deletes_deleteEntry hleaves.deletes key
  apart := hleaves.apart.deleteEntry key
  names := Entries.nodup_erase hleaves.names key
  entry := by
    intro name
    have hname := hleaves.entry name
    unfold entryAfter at hname ⊢
    simp only [mem_deletes_deleteEntry]
    simp only [MapDelta.deleteEntry, Entries.find?_erase]
    by_cases hkey : key = name
    · simp [hkey]
    · simpa [hkey, Ne.symm hkey] using hname

/-- An amount is added to an entry that is neither written nor deleted. -/
theorem Leaves.putAmount {value : Value} (hleaves : delta.Leaves element base left)
    (hdeletes : key ∉ delta.deletes) (hupdates : key ∉ Entries.names delta.updates)
    (hadd : addAmount ((Entries.find? base key).getD .null) amount element = .ok value) :
    { delta with amounts := Entries.put delta.amounts key amount }.Leaves element base
      (Entries.put left key value) where
  amounts := Entries.nodup_put hleaves.amounts key amount
  updates := hleaves.updates
  deletes := hleaves.deletes
  apart := by
    obtain ⟨hamounts, hdeleted, hothers⟩ := hleaves.apart
    refine ⟨fun name => ?_, hdeleted, fun name => ?_⟩ <;> simp only [Entries.mem_names_put]
    · rintro hname (rfl | hmem)
      · exact hupdates hname
      · exact hamounts hname hmem
    · rintro (rfl | hmem) hname
      · exact hdeletes hname
      · exact hothers hmem hname
  names := Entries.nodup_put hleaves.names key value
  entry := by
    intro name
    have hname := hleaves.entry name
    unfold entryAfter at hname ⊢
    simp only [Entries.find?_put]
    by_cases hkey : key = name
    · subst hkey
      have hnone : Entries.find? delta.updates key = .none := by
        by_contra hsome
        exact hupdates (Entries.mem_names_iff.mpr hsome)
      simp [hdeletes, hnone, hadd, Except.map]
    · simpa [hkey] using hname

theorem putEntry_of_fresh {value : Value} (hamounts : key ∉ Entries.names delta.amounts) :
    delta.putEntry key value = { delta with
      deletes := delta.deletes.erase key
      updates := Entries.put delta.updates key value } := by
  rw [MapDelta.putEntry, Entries.erase_of_fresh hamounts]

theorem clear_of_incrementEntry (hstep : delta.incrementEntry key amount element = .ok later) :
    later.clear = delta.clear := by
  unfold MapDelta.incrementEntry at hstep
  split at hstep
  · cases hstep
    rfl
  · split at hstep
    · obtain ⟨next, _, hlater⟩ := bind_eq_ok_iff.mp hstep
      cases hlater
      rfl
    · cases hstep
      rfl
    · cases hstep
      rfl

/-- Adding to what is pending for an entry adds to what it leaves of the entry. -/
theorem Leaves.incrementEntry (hleaves : delta.Leaves element base left)
    (hbase : ∀ key value, Entries.find? base key = some value → value.IsNumber)
    (hwhole : element.IsWhole) (hstep : delta.incrementEntry key amount element = .ok later) :
    ∃ value, addAmount ((Entries.find? left key).getD .null) amount element = .ok value ∧
      later.Leaves element base (Entries.put left key value) := by
  have hentry := hleaves.entry key
  obtain ⟨hamounts, hdeleted, hothers⟩ := hleaves.apart
  unfold entryAfter at hentry
  unfold MapDelta.incrementEntry at hstep
  by_cases hdeletes : key ∈ delta.deletes
  · rw [if_pos hdeletes] at hentry
    rw [if_pos (List.contains_iff_mem.mpr hdeletes)] at hstep
    rw [← Except.ok.inj hentry]
    refine ⟨_, rfl, ?_⟩
    have hlater := hleaves.putEntry key (.number ((Number.zero element).add amount element))
    rw [putEntry_of_fresh fun hmem => hothers hmem hdeletes, Except.ok.inj hstep] at hlater
    exact hlater
  · rw [if_neg hdeletes] at hentry
    rw [if_neg fun hmem => hdeletes (List.contains_iff_mem.mp hmem)] at hstep
    cases hupdate : Entries.find? delta.updates key with
    | some value =>
      rw [hupdate] at hentry hstep
      have hmem := Entries.mem_names_iff.mpr (hupdate ▸ Option.some_ne_none value)
      obtain ⟨next, hadd, hlater⟩ := bind_eq_ok_iff.mp hstep
      rw [← Except.ok.inj hentry]
      refine ⟨next, hadd, ?_⟩
      have hput := hleaves.putEntry key next
      rw [putEntry_of_fresh fun hamount => hamounts hmem hamount,
        List.erase_of_not_mem hdeletes, Except.ok.inj hlater] at hput
      exact hput
    | none =>
      have hupdates : key ∉ Entries.names delta.updates :=
        fun hmem => Entries.mem_names_iff.mp hmem hupdate
      rw [hupdate] at hentry hstep
      cases hpending : Entries.find? delta.amounts key with
      | some pending =>
        rw [hpending] at hentry hstep
        obtain ⟨value, hadd, hvalue⟩ := map_eq_ok_iff.mp hentry
        obtain ⟨number, rfl⟩ := exists_of_addAmount hadd
        rw [← hvalue, ← Except.ok.inj hstep]
        exact ⟨_, rfl, hleaves.putAmount hdeletes hupdates (addAmount_add hwhole hadd amount)⟩
      | none =>
        rw [hpending] at hentry hstep
        rw [← Except.ok.inj hentry, ← Except.ok.inj hstep]
        have hnumber : ((Entries.find? base key).getD .null).IsNumber := by
          cases hfind : Entries.find? base key with
          | none => trivial
          | some value => exact hbase key value hfind
        obtain ⟨number, hadd⟩ := exists_addAmount hnumber amount element
        exact ⟨_, hadd, hleaves.putAmount hdeletes hupdates
          ((addAmount_narrow hwhole _ amount).trans hadd)⟩

end Changes

end MapDelta

/-! ### Sets -/

namespace SetDelta

open Value (Distinct IsAmong isAmong_filter isAmong_without)

variable {delta : SetDelta} {elements base left : List Value} {element value : Value}

theorem mem_adjoin (hmem : value ∈ adjoin elements element) : value ∈ elements ∨ value = element := by
  unfold adjoin at hmem
  split at hmem
  · exact .inl hmem
  · simpa using hmem

theorem wellFormed_adjoin (helements : ∀ element ∈ elements, element.WellFormed)
    (helement : element.WellFormed) : ∀ value ∈ adjoin elements element, value.WellFormed := by
  intro value hmem
  rcases mem_adjoin hmem with hmem | rfl
  · exact helements value hmem
  · exact helement

theorem isAmong_adjoin (helements : ∀ element ∈ elements, element.WellFormed)
    (helement : element.WellFormed) (hvalue : value.WellFormed) :
    IsAmong (adjoin elements element) value ↔ IsAmong elements value ∨ element == value := by
  unfold adjoin
  split
  · rename_i hany
    obtain ⟨held, hmem, hequal⟩ := List.any_eq_true.mp hany
    refine ⟨.inl, fun hamong => hamong.elim id fun hsame => ⟨held, hmem, ?_⟩⟩
    exact (helements held hmem).same_trans helement hvalue hequal hsame
  · simp [IsAmong, or_and_right, exists_or]

theorem distinct_adjoin (hdistinct : Distinct elements) : Distinct (adjoin elements element) := by
  unfold adjoin
  split
  · exact hdistinct
  · rename_i hany
    refine List.pairwise_append.mpr ⟨hdistinct, List.pairwise_singleton _ _, ?_⟩
    intro held hmem other hother hequal
    rw [List.mem_singleton.mp hother] at hequal
    exact hany (List.any_eq_true.mpr ⟨held, hmem, hequal⟩)

/-- Adjoining values one after another makes them elements, and no others. -/
theorem adjoinAll {added : List Value} (hadded : ∀ value ∈ added, value.WellFormed)
    (helements : ∀ element ∈ elements, element.WellFormed) (hdistinct : Distinct elements) :
    (∀ element ∈ added.foldl adjoin elements, element.WellFormed) ∧
      Distinct (added.foldl adjoin elements) ∧
      ∀ value, value.WellFormed → (IsAmong (added.foldl adjoin elements) value ↔
        IsAmong elements value ∨ IsAmong added value) := by
  induction added generalizing elements with
  | nil => exact ⟨helements, hdistinct, fun value _ => by simp [IsAmong]⟩
  | cons first rest ih =>
    obtain ⟨hfirst, hrest⟩ := List.forall_mem_cons.mp hadded
    obtain ⟨hformed, hapart, hamong⟩ := ih hrest (wellFormed_adjoin helements hfirst)
      (distinct_adjoin hdistinct)
    refine ⟨hformed, hapart, fun value hvalue => ?_⟩
    rw [List.foldl_cons, hamong value hvalue, isAmong_adjoin helements hfirst hvalue, or_assoc]
    simp [IsAmong]

/-- No element is added and deleted at once. -/
def Apart (delta : SetDelta) : Prop :=
  ∀ added ∈ delta.adds, ¬ IsAmong delta.deletes added

/-- What is left of a set once its delta is merged, up to the order of the elements. -/
structure Leaves (base : List Value) (delta : SetDelta) (left : List Value) : Prop where
  adds : ∀ added ∈ delta.adds, added.WellFormed
  deletes : ∀ deleted ∈ delta.deletes, deleted.WellFormed
  apart : delta.Apart
  values : ∀ element ∈ left, element.WellFormed
  distinct : Distinct left
  among : ∀ value, value.WellFormed → (IsAmong left value ↔
    (IsAmong base value ∨ IsAmong delta.adds value) ∧ ¬ IsAmong delta.deletes value)

theorem leaves_empty (helements : ∀ element ∈ elements, element.WellFormed)
    (hdistinct : Distinct elements) (clear : Bool) :
    (⟨[], [], clear⟩ : SetDelta).Leaves elements elements where
  adds _ hmem := nomatch hmem
  deletes _ hmem := nomatch hmem
  apart _ hmem := nomatch hmem
  values := helements
  distinct := hdistinct
  among _ _ := by simp [IsAmong]

theorem Leaves.merge_same {whole merged : Value} (hleaves : delta.Leaves elements left)
    (helements : ∀ element ∈ elements, element.WellFormed) (hdistinct : Distinct elements)
    (hwhole : delta.baseElements whole = .ok elements) (hmerge : delta.merge whole = .ok merged) :
    ∃ values, merged = .set values ∧ Value.set values == .set left := by
  obtain ⟨_, hsame, hmerged⟩ := map_eq_ok_iff.mp hmerge
  cases hwhole.symm.trans hsame
  obtain ⟨hformed, hapart, hamong⟩ := adjoinAll hleaves.adds helements hdistinct
  refine ⟨_, hmerged.symm, Value.same_set (fun element hmem => ?_) hleaves.values
    (hapart.filter _) hleaves.distinct fun value hvalue => ?_⟩
  · exact hformed element (List.mem_filter.mp hmem).1
  · have hkept : ∀ value : Value, (!delta.deletes.any fun deleted => deleted == value) = true ↔
        ¬ IsAmong delta.deletes value := by
      intro value
      rw [Bool.not_eq_true', Bool.eq_false_iff, Ne, List.any_eq_true]
      rfl
    rw [isAmong_filter, hamong value hvalue, hkept, hleaves.among value hvalue]
    intro element hmem hequal
    refine congrArg not (Bool.eq_iff_iff.mpr ?_)
    rw [List.any_eq_true, List.any_eq_true]
    refine exists_congr fun deleted => and_congr_right fun hdeleted => ?_
    rw [(hformed element hmem).same_congr_right hvalue (hleaves.deletes deleted hdeleted) hequal]

theorem Leaves.addElement (hleaves : delta.Leaves base left) (hvalue : value.WellFormed) :
    (delta.addElement value).Leaves base (adjoin left value) where
  adds := wellFormed_adjoin hleaves.adds hvalue
  deletes deleted hmem := hleaves.deletes deleted (List.mem_filter.mp hmem).1
  values := wellFormed_adjoin hleaves.values hvalue
  distinct := distinct_adjoin hleaves.distinct
  apart := by
    intro added hadded hdeleted
    rcases mem_adjoin hadded with hmem | rfl
    · rw [SetDelta.addElement, isAmong_without hleaves.deletes hvalue
        (hleaves.adds added hmem)] at hdeleted
      exact hleaves.apart added hmem hdeleted.1
    · rw [SetDelta.addElement, isAmong_without hleaves.deletes hvalue hvalue] at hdeleted
      exact hdeleted.2 hvalue.same_refl
  among other hother := by
    rw [SetDelta.addElement, isAmong_adjoin hleaves.values hvalue hother,
      isAmong_adjoin hleaves.adds hvalue hother, isAmong_without hleaves.deletes hvalue hother,
      hleaves.among other hother]
    tauto

theorem Leaves.deleteElement (hleaves : delta.Leaves base left) (hvalue : value.WellFormed) :
    (delta.deleteElement value).Leaves base (left.filter fun element => !(value == element)) where
  adds added hmem := hleaves.adds added (List.mem_filter.mp hmem).1
  deletes := wellFormed_adjoin hleaves.deletes hvalue
  values element hmem := hleaves.values element (List.mem_filter.mp hmem).1
  distinct := hleaves.distinct.filter _
  apart := by
    intro added hadded hdeleted
    obtain ⟨hmem, hkept⟩ := List.mem_filter.mp hadded
    have hformed := hleaves.adds added hmem
    rw [SetDelta.deleteElement, isAmong_adjoin hleaves.deletes hvalue hformed] at hdeleted
    rcases hdeleted with hdeleted | hsame
    · exact hleaves.apart added hmem hdeleted
    · rw [hvalue.same_symm hformed hsame] at hkept
      cases hkept
  among other hother := by
    have hflip : (left.filter fun element => !(value == element)) =
        left.filter fun element => !(element == value) := by
      refine List.filter_congr fun element hmem => congrArg not (Bool.eq_iff_iff.mpr ?_)
      have hformed := hleaves.values element hmem
      exact ⟨hvalue.same_symm hformed, hformed.same_symm hvalue⟩
    rw [SetDelta.deleteElement, hflip, isAmong_without hleaves.values hvalue hother,
      isAmong_without hleaves.adds hvalue hother, isAmong_adjoin hleaves.deletes hvalue hother,
      hleaves.among other hother]
    tauto

end SetDelta

/-! ### Lists -/

theorem ListDelta.merge_append {delta : ListDelta} {base : Value} {items : List Value}
    (hmerge : delta.merge base = .ok (.list items)) (values : List Value) :
    { delta with appends := delta.appends ++ values }.merge base = .ok (.list (items ++ values)) := by
  unfold ListDelta.merge at hmerge ⊢
  split at hmerge
  · cases hmerge
    rw [if_pos ‹_›]
  · rw [if_neg ‹_›]
    cases base <;> cases hmerge
    · rfl
    · simp

end RecordStore
