import RecordStore.Proofs.Codec.Fill

/-!
# Collections part by part

A collection is written and read part by part, whether it is stored plainly or compressed: one
function on its items or entries says what becomes of it.
-/

namespace RecordStore

/-! ### Values by what is directly within them -/

def Json.parts : Json → List Json
  | .array items => items
  | .object members => members.map Prod.snd
  | _ => []

theorem Json.sizeOf_lt_of_mem_parts {part json : Json} (hpart : part ∈ json.parts) :
    sizeOf part < sizeOf json := by
  cases json with
  | array items =>
    have hless := List.sizeOf_lt_of_mem (show part ∈ items from hpart)
    simp only [array.sizeOf_spec]
    omega
  | object members =>
    obtain ⟨⟨name, _⟩, hmem, rfl⟩ := List.mem_map.mp hpart
    have hless := Entries.sizeOf_lt_of_mem hmem
    simp only [object.sizeOf_spec]
    omega
  | _ => cases hpart

@[elab_as_elim]
theorem Json.inductionOnParts {motive : Json → Prop} (json : Json)
    (step : ∀ json : Json, (∀ part ∈ json.parts, motive part) → motive json) : motive json :=
  step json fun part _ => inductionOnParts part step
termination_by sizeOf json
decreasing_by exact sizeOf_lt_of_mem_parts ‹_›

def Attribute.parts : Attribute → List Attribute
  | .list items => items
  | .map entries => entries.map Prod.snd
  | _ => []

theorem Attribute.sizeOf_lt_of_mem_parts {part stored : Attribute} (hpart : part ∈ stored.parts) :
    sizeOf part < sizeOf stored := by
  cases stored with
  | list items =>
    have hless := List.sizeOf_lt_of_mem (show part ∈ items from hpart)
    simp only [list.sizeOf_spec]
    omega
  | map entries =>
    obtain ⟨⟨name, _⟩, hmem, rfl⟩ := List.mem_map.mp hpart
    have hless := Entries.sizeOf_lt_of_mem hmem
    simp only [map.sizeOf_spec]
    omega
  | _ => cases hpart

@[elab_as_elim]
theorem Attribute.inductionOnParts {motive : Attribute → Prop} (stored : Attribute)
    (step : ∀ stored : Attribute, (∀ part ∈ stored.parts, motive part) → motive stored) :
    motive stored :=
  step stored fun part _ => inductionOnParts part step
termination_by sizeOf stored
decreasing_by exact sizeOf_lt_of_mem_parts ‹_›

/-! ### Parts under names -/

namespace Entries

variable {α β : Type}

/-- The entries with each value replaced, when none of the replacements fails. -/
def mapM (change : α → Except Error β) (entries : List (String × α)) :
    Except Error (List (String × β)) :=
  entries.mapM fun entry => (change entry.2).map fun value => (entry.1, value)

variable {change : α → Except Error β} {entries : List (String × α)}
  {results : List (String × β)}

theorem mapM_cons (name : String) (value : α) (rest : List (String × α)) :
    mapM change ((name, value) :: rest) = (do
      let first ← change value
      return (name, first) :: (← mapM change rest)) := by
  rw [mapM, List.mapM_cons]
  cases change value <;> rfl

theorem names_of_mapM (hall : mapM change entries = .ok results) : names results = names entries := by
  have hrelated := mapM_ok hall
  clear hall
  induction hrelated with
  | nil => rfl
  | cons hentry _ ih =>
    obtain ⟨value, _, rfl⟩ := map_eq_ok_iff.mp hentry
    exact congrArg (_ :: ·) ih

/-- What is found under a name is the replacement of what was found there. -/
theorem find?_of_mapM (hall : mapM change entries = .ok results) (name : String) :
    match find? entries name with
    | some value => ∃ result, change value = .ok result ∧ find? results name = some result
    | none => find? results name = none := by
  have hrelated := mapM_ok hall
  clear hall
  induction hrelated with
  | nil => rfl
  | @cons entry _ rest _ hentry _ ih =>
    obtain ⟨value, hvalue, rfl⟩ := map_eq_ok_iff.mp hentry
    obtain ⟨key, held⟩ := entry
    rw [find?_cons, find?_cons]
    by_cases hkey : key = name
    · rw [if_pos hkey, if_pos hkey]
      exact ⟨value, hvalue, rfl⟩
    · rw [if_neg hkey, if_neg hkey]
      exact ih

theorem exists_mapM (hall : ∀ name value, (name, value) ∈ entries → ∃ result,
    change value = .ok result) : ∃ results, mapM change entries = .ok results := by
  induction entries with
  | nil => exact ⟨[], rfl⟩
  | cons entry rest ih =>
    obtain ⟨name, value⟩ := entry
    obtain ⟨first, hfirst⟩ := hall name value List.mem_cons_self
    obtain ⟨others, hothers⟩ := ih fun name other hmem => hall name other (.tail _ hmem)
    refine ⟨(name, first) :: others, ?_⟩
    rw [mapM_cons, hfirst, ok_bind, hothers]
    rfl

end Entries

theorem exists_mapM {α β : Type} {change : α → Except Error β} {items : List α}
    (hall : ∀ item ∈ items, ∃ result, change item = .ok result) :
    ∃ results, items.mapM change = .ok results := by
  induction items with
  | nil => exact ⟨[], rfl⟩
  | cons item rest ih =>
    obtain ⟨first, hfirst⟩ := hall item List.mem_cons_self
    obtain ⟨others, hothers⟩ := ih fun other hmem => hall other (.tail _ hmem)
    refine ⟨first :: others, ?_⟩
    rw [List.mapM_cons, hfirst, ok_bind, hothers]
    rfl

theorem exists_mapM_iff {α β : Type} {change : α → Except Error β} {items : List α} :
    (∃ results, items.mapM change = .ok results) ↔
      ∀ item ∈ items, ∃ result, change item = .ok result := by
  constructor
  · rintro ⟨results, hall⟩ item hmem
    obtain ⟨result, -, hresult⟩ := exists_mem_of_forall₂ (mapM_ok hall).flip item hmem
    exact ⟨result, hresult⟩
  · exact exists_mapM

theorem mapM_congr {α β : Type} {left right : α → Except Error β} {items : List α}
    (hsame : ∀ item ∈ items, left item = right item) : items.mapM left = items.mapM right := by
  induction items with
  | nil => rfl
  | cons item rest ih =>
    rw [List.mapM_cons, List.mapM_cons, hsame item List.mem_cons_self,
      ih fun other hmem => hsame other (.tail _ hmem)]

theorem mapM_append_ok {α β : Type} {change : α → Except Error β} {first second : List α}
    {left right : List β} (hfirst : first.mapM change = .ok left)
    (hsecond : second.mapM change = .ok right) : (first ++ second).mapM change = .ok (left ++ right) := by
  rw [List.mapM_append, hfirst, ok_bind, hsecond]
  rfl

/-! ### Parts of collections -/

namespace Codec

variable {table : TableSchema} {element : ElementType} {value : Value} {stored : Attribute}

theorem encodeItems_eq (items : List Value) :
    encodeItems table element items = items.mapM (encode table .plain (.scalar element)) := by
  induction items with
  | nil => rfl
  | cons item rest ih => rw [encodeItems, ih, List.mapM_cons]

theorem decodeItems_eq (items : List Attribute) :
    decodeItems table element items = items.mapM (decode table .plain (.scalar element)) := by
  induction items with
  | nil => rfl
  | cons item rest ih => rw [decodeItems, ih, List.mapM_cons]

theorem itemJsons_eq {selection : Selection} (items : List Value) :
    itemJsons table selection items = items.mapM (toJson table selection) := by
  induction items with
  | nil => rfl
  | cons item rest ih => rw [itemJsons, ih, List.mapM_cons]

theorem itemsOfJson_eq (items : List Json) :
    itemsOfJson table element items = items.mapM (ofJson table (.scalar element)) := by
  induction items with
  | nil => rfl
  | cons item rest ih => rw [itemsOfJson, ih, List.mapM_cons]

theorem encodeEntries_eq (entries : List (String × Value)) :
    encodeEntries table element entries =
      Entries.mapM (encode table .plain (.scalar element)) entries := by
  induction entries with
  | nil => rfl
  | cons entry rest ih => rw [encodeEntries, ih, Entries.mapM_cons]

theorem decodeEntries_eq_mapM (entries : List (String × Attribute)) :
    decodeEntries table element entries =
      Entries.mapM (decode table .plain (.scalar element)) entries := by
  induction entries with
  | nil => rfl
  | cons entry rest ih => rw [decodeEntries, ih, Entries.mapM_cons]

theorem entryJsons_eq {selection : Selection} (entries : List (String × Value)) :
    entryJsons table selection entries = Entries.mapM (toJson table selection) entries := by
  induction entries with
  | nil => rfl
  | cons entry rest ih => rw [entryJsons, ih, Entries.mapM_cons]

theorem entriesOfJson_eq_mapM (members : List (String × Json)) :
    entriesOfJson table element members =
      Entries.mapM (ofJson table (.scalar element)) members := by
  induction members with
  | nil => rfl
  | cons entry rest ih => rw [entriesOfJson, ih, Entries.mapM_cons]

/-! ### Collections that are stored plainly -/

theorem encode_list_eq (items : List Value) :
    encode table .plain ⟨.list, some element⟩ (.list items) =
      (items.mapM (encode table .plain (.scalar element))).map .list := by
  rw [← encodeItems_eq]
  change (do return Attribute.list (← encodeItems table element items)) = _
  cases encodeItems table element items <;> rfl

theorem encode_map_eq (entries : List (String × Value)) :
    encode table .plain ⟨.map, some element⟩ (.map entries) =
      (Entries.mapM (encode table .plain (.scalar element)) entries).map fun stored =>
        .map (Item.ofEntries stored) := by
  rw [← encodeEntries_eq]
  change (do
    return Attribute.map (Item.ofEntries (← encodeEntries table element entries))) = _
  cases encodeEntries table element entries <;> rfl

theorem decode_list_eq (items : List Attribute) :
    decode table .plain ⟨.list, some element⟩ (.list items) =
      (items.mapM (decode table .plain (.scalar element))).map .list := by
  rw [← decodeItems_eq]
  change (do return Value.list (← decodeItems table element items)) = _
  cases decodeItems table element items <;> rfl

theorem decode_map_eq (entries : List (String × Attribute)) :
    decode table .plain ⟨.map, some element⟩ (.map entries) =
      (Entries.mapM (decode table .plain (.scalar element)) entries).map .map := by
  rw [← decodeEntries_eq_mapM]
  change (do return Value.map (← decodeEntries table element entries)) = _
  cases decodeEntries table element entries <;> rfl

theorem decode_set_eq (items : List Attribute) :
    decode table .plain ⟨.set, some element⟩ (.list items) =
      (items.mapM (decode table .plain (.scalar element))).map .set := by
  rw [← decodeItems_eq]
  change (do return Value.set (← decodeItems table element items)) = _
  cases decodeItems table element items <;> rfl

theorem decode_numberSet_eq (texts : List String) :
    decode table .plain ⟨.set, some element⟩ (.numberSet texts) =
      (texts.mapM fun text => numberOfText text element).map fun numbers =>
        .set (numbers.map .number) := by
  change (do
    return Value.set ((← texts.mapM fun text => numberOfText text element).map .number)) = _
  cases texts.mapM fun text => numberOfText text element <;> rfl

/-! ### Objects and collections in JSON -/

theorem ofJson_object_eq (typeName : String) (members : List (String × Json)) :
    ofJson table (.scalar (.object typeName)) (.object members) =
      (table.requireType typeName >>= fun type =>
        (fieldsOfJson table type (.empty typeName) members).map Record.toValue) := by
  change (do
    let type ← table.requireType typeName
    let record ← fieldsOfJson table type (.empty typeName) members
    return record.toValue) = _
  refine bind_congr fun type => ?_
  cases fieldsOfJson table type (.empty typeName) members <;> rfl

theorem ofJson_binary_eq (items : List Json) :
    ofJson table (.scalar .binary) (.array items) = (items.mapM byteOfJson).map .binary := by
  change (do return Value.binary (← items.mapM byteOfJson)) = _
  cases items.mapM byteOfJson <;> rfl

theorem ofJson_list_eq (items : List Json) :
    ofJson table ⟨.list, some element⟩ (.array items) =
      (items.mapM (ofJson table (.scalar element))).map .list := by
  rw [← itemsOfJson_eq]
  change (do return Value.list (← itemsOfJson table element items)) = _
  cases itemsOfJson table element items <;> rfl

theorem ofJson_set_eq (items : List Json) :
    ofJson table ⟨.set, some element⟩ (.array items) =
      (items.mapM (ofJson table (.scalar element))).map .set := by
  rw [← itemsOfJson_eq]
  change (do return Value.set (← itemsOfJson table element items)) = _
  cases itemsOfJson table element items <;> rfl

theorem ofJson_map_eq (members : List (String × Json)) :
    ofJson table ⟨.map, some element⟩ (.object members) =
      (Entries.mapM (ofJson table (.scalar element)) members).map .map := by
  rw [← entriesOfJson_eq_mapM]
  change (do return Value.map (← entriesOfJson table element members)) = _
  cases entriesOfJson table element members <;> rfl

end Codec

end RecordStore
