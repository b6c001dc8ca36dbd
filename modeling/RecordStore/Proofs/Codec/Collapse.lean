import RecordStore.Proofs.Codec.Legible
import RecordStore.Proofs.Codec.RoundTrip

/-!
# Elements that share an id

A list that is stored by id holds one entry for each text of an id, that of the last element with
it.
Nothing refuses the elements before it, so that they are lost. Every other element is read as if it
was stored alone, and a list whose ids have distinct texts loses nothing.
-/

namespace RecordStore

/-! ### The last elements of their keys -/

section LastPerKey

variable {α β κ μ : Type} [DecidableEq κ] [DecidableEq μ] {key : α → κ} {list : List α}

/-- The elements that stay when each takes the place of the earlier ones with its key. -/
def lastPerKey (key : α → κ) (list : List α) : List α :=
  list.pwFilter fun first second => key first ≠ key second

theorem lastPerKey_cons (key : α → κ) (element : α) (rest : List α) :
    lastPerKey key (element :: rest) = if key element ∈ rest.map key then lastPerKey key rest
      else element :: lastPerKey key rest := by
  have hall : (∀ other ∈ lastPerKey key rest, key element ≠ key other) ↔
      key element ∉ rest.map key := by
    have htrans : ∀ {first second third : α}, key first ≠ key third →
        key first ≠ key second ∨ key second ≠ key third := by
      intro first second third hne
      by_cases hsame : key first = key second
      · exact .inr (hsame ▸ hne)
      · exact .inl hsame
    refine (@List.forall_mem_pwFilter α (fun first second => key first ≠ key second) _ htrans
      element rest).trans ?_
    simp [eq_comm]
  by_cases hmem : key element ∈ rest.map key
  · rw [if_pos hmem]
    exact List.pwFilter_cons_of_neg fun hfresh => hall.mp hfresh hmem
  · rw [if_neg hmem]
    exact List.pwFilter_cons_of_pos (hall.mpr hmem)

theorem map_lastPerKey (key : α → κ) (list : List α) :
    (lastPerKey key list).map key = (list.map key).dedup :=
  (@List.pwFilter_map κ (· ≠ ·) α _ key list).symm

theorem lastPerKey_eq_self_iff : lastPerKey key list = list ↔ (list.map key).Nodup :=
  List.pwFilter_eq_self.trans List.pairwise_map.symm

theorem length_lastPerKey_eq_iff :
    (lastPerKey key list).length = list.length ↔ (list.map key).Nodup := by
  rw [← lastPerKey_eq_self_iff]
  exact ⟨(List.pwFilter_sublist list).eq_of_length, congrArg List.length⟩

/-- Lists whose keys agree lose the same elements. -/
theorem forall₂_lastPerKey {relates : α → β → Prop} {other : β → μ}
    (hkeys : ∀ first left second right, relates first left → relates second right →
      (key first = key second ↔ other left = other right))
    {elements : List β} (hrelates : List.Forall₂ relates list elements) :
    List.Forall₂ relates (lastPerKey key list) (lastPerKey other elements) := by
  induction hrelates with
  | nil => exact .nil
  | @cons first left rest others hfirst hrest ih =>
    have hmem : key first ∈ rest.map key ↔ other left ∈ others.map other := by
      rw [List.mem_map, List.mem_map]
      constructor
      · rintro ⟨second, hsecond, hsame⟩
        obtain ⟨right, hright, hrelated⟩ := exists_mem_of_forall₂ hrest.flip second hsecond
        exact ⟨right, hright, ((hkeys second right first left hrelated hfirst).mp hsame)⟩
      · rintro ⟨right, hright, hsame⟩
        obtain ⟨second, hsecond, hrelated⟩ := exists_mem_of_forall₂ hrest right hright
        exact ⟨second, hsecond, ((hkeys second right first left hrelated hfirst).mpr hsame)⟩
    rw [lastPerKey_cons, lastPerKey_cons]
    by_cases hagain : key first ∈ rest.map key
    · rw [if_pos hagain, if_pos (hmem.mp hagain)]
      exact ih
    · rw [if_neg hagain, if_neg (mt hmem.mpr hagain)]
      exact .cons hfirst ih

end LastPerKey

namespace Entries

variable {α : Type} {entries : List (String × α)}

theorem names_lastPerKey (entries : List (String × α)) :
    (names (lastPerKey Prod.fst entries)).Nodup := by
  rw [names, map_lastPerKey]
  exact List.nodup_dedup _

theorem mem_names_lastPerKey {name : String} :
    name ∈ names (lastPerKey Prod.fst entries) ↔ name ∈ names entries := by
  rw [names, map_lastPerKey, List.mem_dedup]
  rfl

/-- What sorted entries hold under a name is the last thing that came under it. -/
theorem find?_sorted_last (entries : List (String × α)) (name : String) :
    find? (sorted entries) name = find? (lastPerKey Prod.fst entries) name := by
  have hfold : ∀ held : List (String × α),
      find? (entries.foldl (fun held entry => Entries.insert held entry.1 entry.2) held) name =
        (find? (lastPerKey Prod.fst entries) name).or (find? held name) := by
    induction entries with
    | nil => exact fun held => rfl
    | cons entry rest ih =>
      intro held
      obtain ⟨key, value⟩ := entry
      rw [List.foldl_cons, ih, find?_insert, lastPerKey_cons]
      by_cases hagain : key ∈ rest.map Prod.fst
      · rw [if_pos hagain]
        by_cases hkey : key = name
        · -- The later entry of the name is found before the held ones are looked at.
          obtain ⟨later, hlater⟩ := Option.ne_none_iff_exists'.mp
            (mem_names_iff.mp (mem_names_lastPerKey.mpr (hkey ▸ hagain)))
          rw [hlater, Option.some_or, Option.some_or]
        · rw [if_neg hkey]
      · rw [if_neg hagain, find?_cons]
        by_cases hkey : key = name
        · have hnone : find? (lastPerKey Prod.fst rest) name = none := by
            by_contra hsome
            exact hagain (hkey ▸ mem_names_lastPerKey.mp (mem_names_iff.mpr hsome))
          rw [if_pos hkey, if_pos hkey, hnone, Option.none_or, Option.some_or]
        · rw [if_neg hkey, if_neg hkey]
  rw [sorted, hfold, find?_nil, Option.or_none]

theorem perm_sorted_last (entries : List (String × α)) :
    (sorted entries).Perm (lastPerKey Prod.fst entries) := by
  have hnames := names_lastPerKey entries
  have hsame : sorted entries = sorted (lastPerKey Prod.fst entries) :=
    (ascending_sorted _).ext (ascending_sorted _) fun name => by
      rw [find?_sorted_last, find?_sorted hnames]
  rw [hsame]
  exact perm_sorted hnames

end Entries

namespace Codec

variable {table : TableSchema} {field : FieldSchema} {type : ValueType} {object : TypeSchema}
  {item : Value} {items : List Value} {entry : String × Attribute}
  {entries : List (String × Attribute)} {stored : Attribute}

/-! ### Elements that are stored alone -/

/-- The text that an object is stored under. -/
def textOf? : Value → Option String
  | .object typeName fields _ => (idText typeName fields).toOption
  | _ => none

/-- Each element is stored as if it was the only one. -/
theorem encodeById_ok (hstore : encodeById table type object items = .ok entries) :
    List.Forall₂ (fun item entry => encodeById table type object [item] = .ok [entry]) items
      entries := by
  induction items generalizing entries with
  | nil =>
    cases hstore
    exact .nil
  | cons item rest ih =>
    cases item with
    | object typeName fields revision =>
      rw [encodeById] at hstore
      obtain ⟨id, hid, hstore⟩ := bind_eq_ok_iff.mp hstore
      obtain ⟨members, hmembers, hstore⟩ := bind_eq_ok_iff.mp hstore
      obtain ⟨others, hothers, hdone⟩ := bind_eq_ok_iff.mp hstore
      cases hdone
      refine .cons ?_ (ih hothers)
      rw [encodeById, hid, ok_bind, hmembers]
      rfl
    | _ => cases hstore

theorem textOf?_of_encodeById (hstore : encodeById table type object [item] = .ok [entry]) :
    textOf? item = some entry.1 := by
  cases item with
  | object typeName fields revision =>
    rw [encodeById] at hstore
    obtain ⟨id, hid, hstore⟩ := bind_eq_ok_iff.mp hstore
    obtain ⟨members, _, hdone⟩ := bind_eq_ok_iff.mp hstore
    cases hdone
    rw [textOf?, hid]
    rfl
  | _ => cases hstore

/-- What an element is read as when the list holds nothing else. -/
def ReadsAlone (table : TableSchema) (field : FieldSchema) (item value : Value) : Prop :=
  ∃ stored, encodeField table field (.list [item]) = .ok stored ∧
    decodeField table field stored = .ok (.list [value])

/-- How a list is stored by id: which elements stay, and what they are read as. -/
structure Collapses (table : TableSchema) (field : FieldSchema) (items : List Value)
    (entries : Item) : Prop where
  count : entries.length = (lastPerKey textOf? items).length
  exact : entries.length = items.length ↔ (items.map textOf?).Nodup
  /-- The last element of each text is stored under it, in the way it is stored alone. -/
  entry : ∀ item ∈ lastPerKey textOf? items, ∃ text stored, textOf? item = some text ∧
    encodeField table field (.list [item]) = .ok (.map [(text, stored)]) ∧
      Item.get? entries text = some stored
  reads : ∀ value, decodeField table field (.map entries) = .ok value →
    ∃ read values, value = .list read ∧ read.Perm values ∧
      List.Forall₂ (ReadsAlone table field) (lastPerKey textOf? items) values
  /-- The list can be read when its last elements can. -/
  legible : (∀ item ∈ lastPerKey textOf? items, ∃ value, ReadsAlone table field item value) →
    ∃ value, decodeField table field (.map entries) = .ok value

section Field

variable (hbyId : field.rekeyById = true) (hplain : field.compress = false)
include hbyId hplain

theorem storage_byId : field.storage = ⟨false, some field.name⟩ := by
  rw [FieldSchema.storage, hplain, if_pos hbyId]

theorem decodeField_map {kind : Kind} {element : ElementType}
    (htype : field.type = ⟨kind, some element⟩) (entries : Item) :
    decodeField table field (.map entries) =
      (Entries.mapM (decode table .plain (.scalar element)) entries).map fun reads =>
        .list ((reads.map Prod.snd).mergeSort idPrecedes) := by
  rw [decodeField, storage_byId hbyId hplain, htype, ← decodeEntries_eq_mapM]
  change (do
    let reads ← decodeEntries table element entries
    return Value.list ((reads.map Prod.snd).mergeSort idPrecedes)) = _
  cases decodeEntries table element entries <;> rfl

theorem decodeField_single {kind : Kind} {element : ElementType} {value : Value}
    (htype : field.type = ⟨kind, some element⟩) :
    decodeField table field (.map [entry]) = .ok (.list [value]) ↔
      decode table .plain (.scalar element) entry.2 = .ok value := by
  obtain ⟨name, stored⟩ := entry
  rw [decodeField_map hbyId hplain htype, Entries.mapM_cons]
  cases decode table .plain (.scalar element) stored with
  | error error => exact ⟨nofun, nofun⟩
  | ok read =>
    change Except.ok (Value.list ([read].mergeSort idPrecedes)) = _ ↔ _
    rw [List.mergeSort_singleton, Except.ok.injEq, Except.ok.injEq, Value.list.injEq,
      List.singleton_inj]

section Elements

variable {kind : Kind} {typeName : String} (htype : field.type = ⟨kind, some (.object typeName)⟩)
include htype

theorem encodeField_single (hdeclared : table.type? typeName = some object)
    (hstore : encodeById table field.type object [item] = .ok [entry]) :
    encodeField table field (.list [item]) = .ok (.map [entry]) := by
  rw [encodeField, storage_byId hbyId hplain]
  rw [htype] at hstore ⊢
  change (do
    let object ← table.requireType typeName
    return Attribute.map (Item.ofEntries (← encodeById table _ object [item]))) = _
  rw [TableSchema.requireType_eq_ok_iff.mpr hdeclared, ok_bind, hstore]
  rfl

theorem readsAlone_iff (hdeclared : table.type? typeName = some object)
    (hstore : encodeById table field.type object [item] = .ok [entry]) {value : Value} :
    ReadsAlone table field item value ↔
      decode table .plain (.scalar (.object typeName)) entry.2 = .ok value := by
  rw [← decodeField_single hbyId hplain htype]
  have hsingle := encodeField_single hbyId hplain htype hdeclared hstore
  constructor
  · rintro ⟨stored, hstored, hvalue⟩
    cases hsingle.symm.trans hstored
    exact hvalue
  · exact fun hvalue => ⟨.map [entry], hsingle, hvalue⟩

/-- What is read of sorted entries are the values of the last of them. -/
theorem perm_of_decodeField {entries : List (String × Attribute)} {value : Value}
    (hdecode : decodeField table field (.map (Entries.sorted entries)) = .ok value) :
    (∀ entry ∈ lastPerKey Prod.fst entries,
      decode table .plain (.scalar (.object typeName)) entry.2 =
        .ok (elementOf table (.object typeName) entry.2)) ∧
    ∃ read, value = .list read ∧ read.Perm ((lastPerKey Prod.fst entries).map fun entry =>
      elementOf table (.object typeName) entry.2) := by
  rw [decodeField_map hbyId hplain htype] at hdecode
  obtain ⟨reads, hreads, rfl⟩ := map_eq_ok_iff.mp hdecode
  have hread : ∀ entry ∈ Entries.sorted entries,
      decode table .plain (.scalar (.object typeName)) entry.2 =
        .ok (elementOf table (.object typeName) entry.2) := by
    intro entry hmem
    obtain ⟨read, _, hentry⟩ := exists_mem_of_forall₂ (mapM_ok hreads).flip entry hmem
    obtain ⟨value, hvalue, _⟩ := map_eq_ok_iff.mp hentry
    rw [elementOf, hvalue]
    rfl
  have hperm := Entries.perm_sorted_last entries
  rw [← decodeEntries_eq_mapM, decodeEntries_eq hread] at hreads
  cases hreads
  refine ⟨fun entry hmem => hread entry (hperm.mem_iff.mpr hmem), _, rfl, ?_⟩
  refine (List.mergeSort_perm _ _).trans ?_
  rw [List.map_map]
  exact hperm.map _

end Elements

/-- A list that is stored by id keeps the last element of each text, and only these. -/
theorem collapses_of_encodeField (hstore : encodeField table field (.list items) = .ok stored) :
    ∃ entries, stored = .map entries ∧ Collapses table field items entries := by
  have hencode := hstore
  rw [encodeField, storage_byId hbyId hplain] at hencode
  obtain ⟨typeName, object, helement, hdeclared,
    ⟨hnull, _⟩ | ⟨_, entries, hitems, hentries, rfl⟩⟩ := encode_byId_ok hencode
  · cases hnull
  cases hitems
  have htype : field.type = ⟨field.type.kind, some (.object typeName)⟩ := by rw [← helement]
  have hperm := Entries.perm_sorted_last entries
  -- Elements and entries have the same texts, so that the same of them are the last ones.
  have hlast := @forall₂_lastPerKey _ _ _ _ _ _ textOf? items
    (fun item entry => encodeById table field.type object [item] = .ok [entry]) Prod.fst
    (fun first left second right hfirst hsecond => by
      rw [textOf?_of_encodeById hfirst, textOf?_of_encodeById hsecond, Option.some.injEq])
    entries (encodeById_ok hentries)
  have hcount : (Entries.sorted entries).length = (lastPerKey textOf? items).length :=
    hperm.length_eq.trans hlast.length_eq.symm
  refine ⟨Entries.sorted entries, rfl, hcount, ?_, ?_, ?_, ?_⟩
  · rw [hcount, length_lastPerKey_eq_iff]
  · intro item hitem
    obtain ⟨⟨text, single⟩, hentry, hsingle⟩ := exists_mem_of_forall₂ hlast.flip item hitem
    exact ⟨text, single, textOf?_of_encodeById hsingle,
      encodeField_single hbyId hplain htype hdeclared hsingle,
      (Entries.ascending_sorted entries).mem_iff.mp (hperm.mem_iff.mpr hentry)⟩
  · intro value hdecode
    obtain ⟨hread, read, hvalue, hreadPerm⟩ := perm_of_decodeField hbyId hplain htype hdecode
    refine ⟨read, _, hvalue, hreadPerm, List.forall₂_map_right_iff.mpr ?_⟩
    have hboth := (List.forall₂_and_left _ _).mpr ⟨hread, hlast.flip⟩
    exact hboth.flip.imp fun item entry hstored =>
      (readsAlone_iff hbyId hplain htype hdeclared hstored.2).mpr hstored.1
  · intro hall
    obtain ⟨reads, hreads⟩ := @Entries.exists_mapM _ _
      (decode table .plain (.scalar (.object typeName))) (Entries.sorted entries)
      fun name single hmem => by
        obtain ⟨item, hitem, hsingle⟩ :=
          exists_mem_of_forall₂ hlast (name, single) (hperm.mem_iff.mp hmem)
        obtain ⟨value, hvalue⟩ := hall item hitem
        exact ⟨value, (readsAlone_iff hbyId hplain htype hdeclared hsingle).mp hvalue⟩
    rw [decodeField_map hbyId hplain htype, hreads]
    exact ⟨_, rfl⟩

end Field

/-! ### Ids that come again -/

theorem textOf?_congr {first second : Value} (hsame : idOf first = idOf second) :
    textOf? first = textOf? second := by
  have htext : ∀ value, textOf? value = (idOf value).bind fun id =>
      (idText "" [("id", id)]).toOption := by
    intro value
    cases value with
    | object typeName fields revision =>
      change (idText typeName fields).toOption = (Entries.find? fields "id").bind _
      unfold idText
      cases Entries.find? fields "id" with
      | none => rfl
      | some id => cases id <;> rfl
    | _ => rfl
  rw [htext, htext, hsame]

theorem CarryIds.exists_id (hids : CarryIds items) : ∀ item ∈ items, ∃ id, idOf item = some id := by
  cases hids with
  | strings hcarried | integers hcarried | bytes hcarried =>
    exact fun item hmem => ⟨_, (hcarried item hmem).choose_spec⟩

/-- Ids of one type have distinct texts when they are distinct. -/
theorem CarryIds.nodup_textOf?_iff (hids : CarryIds items) :
    (items.map textOf?).Nodup ↔ (items.map idOf).Nodup := by
  refine ⟨fun htexts => ?_, fun hdistinct => ?_⟩
  · refine List.Nodup.map_on (fun first hfirst second hsecond hsame => ?_) (htexts.of_map _)
    exact List.inj_on_of_nodup_map htexts hfirst hsecond (textOf?_congr hsame)
  · obtain ⟨text, htext, hinjective⟩ := hids.exists_text
    have htextOf : ∀ item ∈ items, textOf? item = some (text item) := by
      intro item hmem
      obtain ⟨id, hid⟩ := hids.exists_id item hmem
      cases item with
      | object typeName fields revision =>
        rw [textOf?, htext typeName fields revision hmem]
        rfl
      | _ => cases hid
    refine List.Nodup.map_on (fun first hfirst second hsecond hsame => ?_) (hdistinct.of_map _)
    rw [htextOf first hfirst, htextOf second hsecond, Option.some.injEq] at hsame
    exact List.inj_on_of_nodup_map hdistinct hfirst hsecond
      (hinjective first hfirst second hsecond hsame)

/-- Where no id comes again nothing is lost. -/
theorem Collapses.all {entries : Item} (hcollapses : Collapses table field items entries)
    (hids : CarryIds items) (hdistinct : (items.map idOf).Nodup) :
    entries.length = items.length ∧ ∀ value, decodeField table field (.map entries) = .ok value →
      ∃ read values, value = .list read ∧ read.Perm values ∧
        List.Forall₂ (ReadsAlone table field) items values := by
  have htexts := hids.nodup_textOf?_iff.mpr hdistinct
  refine ⟨hcollapses.exact.mpr htexts, fun value hdecode => ?_⟩
  obtain ⟨read, values, hvalue, hperm, hreads⟩ := hcollapses.reads value hdecode
  rw [lastPerKey_eq_self_iff.mpr htexts] at hreads
  exact ⟨read, values, hvalue, hperm, hreads⟩

/-- Two lines with one id are stored as one. -/
example : encodeField orderTable
    ⟨"lines", "lines", ⟨.list, some (.object "Line")⟩, none, true, true, false, false, false, true,
      false⟩ (.list [orderLine 9 "mill", orderLine 9 "wheel"]) =
    .ok (.map [("9", .map [("id", .number "9")])]) := by
  rfl

end Codec

end RecordStore
