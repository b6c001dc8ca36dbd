import RecordStore.Proofs.Codec.Typed
import RecordStore.Proofs.Entries
import RecordStore.Proofs.Numeral
import RecordStore.Proofs.Schema.Accepted

/-!
# Typed values as JSON

The document that a typed value is compressed as can be read again, and reads as what the document
keeps of the value.
-/

namespace RecordStore

variable {table : TableSchema} {type : ValueType} {value : Value}

namespace Value

/-- Whether a type declares a field that is stored. -/
abbrev keeps (type : Option TypeSchema) (name : String) : Bool :=
  (type.bind fun type => type.field? name).any FieldSchema.persist

theorem mem_keptFields {declared : Option TypeSchema} {fields : List (String × Value)}
    {entry : String × Value} : entry ∈ keptFields table declared fields ↔
      keeps declared entry.1 = true ∧
        ∃ value, (entry.1, value) ∈ fields ∧ entry.2 = value.kept table := by
  induction fields with
  | nil => simp [keptFields]
  | cons first rest ih =>
    obtain ⟨name, held⟩ := first
    rw [keptFields]
    split
    · rename_i hkeeps
      rw [List.mem_cons, ih]
      constructor
      · rintro (rfl | ⟨hother, value, hmem, hvalue⟩)
        · exact ⟨hkeeps, held, List.mem_cons_self, rfl⟩
        · exact ⟨hother, value, .tail _ hmem, hvalue⟩
      · rintro ⟨hother, value, hmem, hvalue⟩
        rcases List.mem_cons.mp hmem with hfirst | hmem
        · left
          obtain ⟨other, kept⟩ := entry
          cases hfirst
          cases hvalue
          rfl
        · exact .inr ⟨hother, value, hmem, hvalue⟩
    · rename_i hkeeps
      rw [ih]
      refine and_congr_right fun hother => exists_congr fun value => and_congr_left fun _ => ?_
      rw [List.mem_cons]
      refine ⟨.inr, Or.rec (fun hfirst => absurd ?_ hkeeps) id⟩
      cases hfirst
      exact hother

theorem names_keptFields (declared : Option TypeSchema) (fields : List (String × Value)) :
    (Entries.names (keptFields table declared fields)).Sublist (Entries.names fields) := by
  induction fields with
  | nil => rw [keptFields]
  | cons first rest ih =>
    obtain ⟨name, held⟩ := first
    rw [keptFields]
    split
    · exact ih.cons_cons name
    · exact ih.cons name

theorem isNull_kept (hvalue : value.isNull = false) : (value.kept table).isNull = false := by
  cases value <;> first | rfl | cases hvalue

end Value

theorem Typed.isNull (htyped : Typed table type value) : value.isNull = false := by
  cases htyped <;> rfl

/-! ### Numbers and bytes -/

theorem Int64.narrow_integer {value : Int64} (hleast : -2 ^ 31 ≤ value.toInt)
    (hmost : value.toInt < 2 ^ 31) : value.toInt32.toInt64 = value := by
  apply Int64.toInt_inj.mp
  rw [Int32.toInt_toInt64, Int64.toInt_toInt32]
  apply Int.bmod_eq_of_le <;> omega

namespace Codec

theorem numberOfInt_toInt (value : Int64) : numberOfInt value.toInt = .integer value := by
  rw [numberOfInt, Decimal.int64?_toInt]

theorem byteOfJson_toNat (byte : UInt8) : byteOfJson (.integer byte.toNat) = .ok byte := by
  have hless := byte.toNat_lt
  rw [byteOfJson, if_pos (by omega), Int.toNat_natCast, UInt8.ofNat_toNat]

theorem mapM_byteOfJson (bytes : List UInt8) :
    (bytes.map fun byte => Json.integer byte.toNat).mapM byteOfJson = .ok bytes := by
  induction bytes with
  | nil => rfl
  | cons byte rest ih =>
    rw [List.map_cons, List.mapM_cons, byteOfJson_toNat, ih]
    rfl

/-! ### Collections -/

theorem itemsOfJson_of_itemJsons {element : ElementType} {items : List Value}
    (hread : ∀ item ∈ items, ∃ json, toJson table .stored item = .ok json ∧
      ofJson table (.scalar element) json = .ok (item.kept table)) :
    ∃ jsons, itemJsons table .stored items = .ok jsons ∧
      itemsOfJson table element jsons = .ok (Value.keptItems table items) := by
  induction items with
  | nil => exact ⟨[], rfl, by rw [Value.keptItems]; rfl⟩
  | cons item rest ih =>
    obtain ⟨json, hwrite, hjson⟩ := hread item List.mem_cons_self
    obtain ⟨jsons, hwriteRest, hjsons⟩ := ih fun other hmem => hread other (.tail _ hmem)
    refine ⟨json :: jsons, ?_, ?_⟩
    · rw [itemJsons, hwrite, ok_bind, hwriteRest]
      rfl
    · rw [itemsOfJson, hjson, ok_bind, hjsons, Value.keptItems]
      rfl

/-- What a document reads as. -/
def elementOfJson (table : TableSchema) (element : ElementType) (json : Json) : Value :=
  (ofJson table (.scalar element) json).toOption.getD .null

theorem entriesOfJson_eq {element : ElementType} {members : List (String × Json)}
    (hread : ∀ entry ∈ members,
      ofJson table (.scalar element) entry.2 = .ok (elementOfJson table element entry.2)) :
    entriesOfJson table element members =
      .ok (members.map fun entry => (entry.1, elementOfJson table element entry.2)) := by
  induction members with
  | nil => rfl
  | cons entry rest ih =>
    rw [entriesOfJson, hread entry List.mem_cons_self, ok_bind,
      ih fun other hmem => hread other (.tail _ hmem)]
    rfl

theorem entryJsons_ok {element : ElementType} {entries : List (String × Value)}
    (hread : ∀ name value, (name, value) ∈ entries → ∃ json,
      toJson table .stored value = .ok json ∧
        ofJson table (.scalar element) json = .ok (value.kept table)) :
    ∃ jsons, entryJsons table .stored entries = .ok jsons ∧
      (∀ entry ∈ jsons,
        ofJson table (.scalar element) entry.2 = .ok (elementOfJson table element entry.2)) ∧
      jsons.map (fun entry => (entry.1, elementOfJson table element entry.2)) =
        Value.keptEntries table entries := by
  induction entries with
  | nil => exact ⟨[], rfl, by simp, by rw [Value.keptEntries, List.map_nil]⟩
  | cons entry rest ih =>
    obtain ⟨name, value⟩ := entry
    obtain ⟨json, hwrite, hjson⟩ := hread name value List.mem_cons_self
    obtain ⟨jsons, hwriteRest, hjsons, hmap⟩ := ih fun name other hmem => hread name other (.tail _ hmem)
    have hkept : elementOfJson table element json = value.kept table := by
      rw [elementOfJson, hjson]
      rfl
    refine ⟨(name, json) :: jsons, ?_, ?_, ?_⟩
    · rw [entryJsons, hwrite, ok_bind, hwriteRest]
      rfl
    · refine List.forall_mem_cons.mpr ⟨?_, hjsons⟩
      rw [hkept, hjson]
    · rw [List.map_cons, hmap, hkept, Value.keptEntries]

/-! ### Objects -/

theorem find?_memberJsons {selection : Selection} (fields : List (String × Value)) (name : String) :
    Entries.find? (memberJsons table selection fields) name =
      (Entries.find? fields name).map (toJson table selection) := by
  induction fields with
  | nil => rfl
  | cons entry rest ih =>
    obtain ⟨key, value⟩ := entry
    rw [memberJsons, Entries.find?_cons, Entries.find?_cons, ih]
    split <;> rfl

/-- The members that are written are those of the fields that are held and included. -/
theorem selectMembers_ok {selection : Selection} {held : List (String × Except Error Json)}
    {fields : List FieldSchema} (hnames : (fields.map FieldSchema.name).Nodup)
    (hheld : ∀ field ∈ fields, selection.includes field = true →
      ∀ outcome, Entries.find? held field.name = some outcome → ∃ json, outcome = .ok json) :
    ∃ members, selectMembers selection held fields = .ok members ∧
      (Entries.names members).Nodup ∧
      ∀ name json, (name, json) ∈ members ↔ ∃ field ∈ fields, field.name = name ∧
        selection.includes field = true ∧ Entries.find? held name = some (.ok json) := by
  induction fields with
  | nil => exact ⟨[], rfl, List.nodup_nil, by simp⟩
  | cons field rest ih =>
    obtain ⟨hfresh, hrest⟩ := List.nodup_cons.mp hnames
    obtain ⟨members, hselect, hdistinct, hmembers⟩ := ih hrest fun other hmem =>
      hheld other (.tail _ hmem)
    have hskip : (∀ json, ¬ (selection.includes field = true ∧
        Entries.find? held field.name = some (.ok json))) →
        ∀ name json, (name, json) ∈ members ↔ ∃ other ∈ field :: rest, other.name = name ∧
          selection.includes other = true ∧ Entries.find? held name = some (.ok json) := by
      intro hnot name json
      rw [hmembers, List.exists_mem_cons_iff]
      refine ⟨.inr, Or.rec ?_ id⟩
      rintro ⟨rfl, hwritten⟩
      exact absurd hwritten (hnot json)
    rw [selectMembers]
    by_cases hincludes : selection.includes field = true
    · cases houtcome : Entries.find? held field.name with
      | none => exact ⟨members, hselect, hdistinct, hskip fun json hwritten => by simp_all⟩
      | some outcome =>
        obtain ⟨json, rfl⟩ := hheld field List.mem_cons_self hincludes outcome houtcome
        refine ⟨(field.name, json) :: members, ?_, ?_, fun name other => ?_⟩
        · dsimp only
          rw [if_pos hincludes, hselect]
          rfl
        · refine List.nodup_cons.mpr ⟨fun hmem => ?_, hdistinct⟩
          obtain ⟨⟨name, other⟩, hentry, hname⟩ := List.mem_map.mp hmem
          obtain ⟨declared, hdeclared, hsame, _⟩ := (hmembers name other).mp hentry
          exact hfresh (List.mem_map.mpr ⟨declared, hdeclared, hsame.trans hname⟩)
        · rw [List.mem_cons, hmembers, List.exists_mem_cons_iff]
          refine or_congr_left ⟨?_, ?_⟩
          · rintro hfirst
            cases hfirst
            exact ⟨rfl, hincludes, houtcome⟩
          · rintro ⟨rfl, _, hother⟩
            rw [houtcome] at hother
            cases hother
            rfl
    · refine ⟨members, ?_, hdistinct, hskip fun json hwritten => hincludes hwritten.1⟩
      split
      · rw [if_neg hincludes, hselect]
      · exact hselect

theorem fieldsOfJson_eq {declared : TypeSchema} {value : String → Value}
    {members : List (String × Json)} {record : Record}
    (hnames : (Entries.names members).Nodup)
    (hfresh : ∀ name ∈ Entries.names members, Entries.find? record.fields name = none)
    (hread : ∀ entry ∈ members, ∃ field, declared.field? entry.1 = some field ∧
      ofJson table field.type entry.2 = .ok (value entry.1) ∧ (value entry.1).isNull = false) :
    fieldsOfJson table declared record members =
      .ok { record with
        fields := record.fields ++ members.map fun entry => (entry.1, value entry.1) } := by
  induction members generalizing record with
  | nil =>
    rw [fieldsOfJson, List.map_nil, List.append_nil]
  | cons entry rest ih =>
    obtain ⟨name, json⟩ := entry
    obtain ⟨hnew, hrest⟩ := List.nodup_cons.mp hnames
    obtain ⟨field, hfield, hjson, hvalue⟩ := hread (name, json) List.mem_cons_self
    have hset : record.set name (value name) =
        { record with fields := record.fields ++ [(name, value name)] } := by
      rw [Record.set, hvalue, Entries.put_of_fresh _ (hfresh name List.mem_cons_self)]
      rfl
    rw [fieldsOfJson, hfield]
    dsimp only
    rw [hjson, ok_bind, hset, ih hrest]
    · rw [List.append_assoc]
      rfl
    · intro other hmem
      rw [Entries.find?_append, hfresh other (.tail _ hmem), Option.none_or, Entries.find?_cons,
        if_neg]
      · rfl
      · rintro rfl
        exact hnew hmem
    · exact fun other hmem => hread other (.tail _ hmem)

end Codec

/-! ### Typed values -/

theorem TableSchema.Accepted.names_of_type? {typeName : String} {declared : TypeSchema}
    (haccepted : table.Accepted) (hdeclared : table.type? typeName = some declared) :
    (declared.fields.map FieldSchema.name).Nodup :=
  (haccepted.fields _ (List.mem_of_find?_eq_some hdeclared)).names

/-- Reading the members that are written for an object gives what each of them reads as, under the
names of the fields that are held and included. -/
theorem Codec.exists_json_object {selection : Selection} {typeName : String} {declared : TypeSchema}
    {fields : List (String × Value)} {revision : Int64} {value : String → Value}
    (haccepted : table.Accepted) (hdeclared : table.type? typeName = some declared)
    (hnames : (Entries.names fields).Nodup)
    (hread : ∀ name held field, (name, held) ∈ fields → declared.field? name = some field →
      ∃ json, toJson table selection held = .ok json ∧
        ofJson table field.type json = .ok (value name) ∧ (value name).isNull = false) :
    ∃ members, toJson table selection (.object typeName fields revision) = .ok (.object members) ∧
      recordOfJson table typeName (.object members) =
        .ok ⟨typeName, members.map fun entry => (entry.1, value entry.1), 0⟩ ∧
      Entries.Ascending members ∧
      ∀ name, name ∈ Entries.names members ↔ ∃ held field, (name, held) ∈ fields ∧
        declared.field? name = some field ∧ selection.includes field = true := by
  have hdistinct := haccepted.names_of_type? hdeclared
  have hrequire := TableSchema.requireType_eq_ok_iff.mpr hdeclared
  obtain ⟨members, hselect, hmembersNames, hmembers⟩ :=
    @selectMembers_ok selection (memberJsons table selection fields) _ hdistinct (by
      intro field hmem _ outcome houtcome
      rw [find?_memberJsons] at houtcome
      obtain ⟨held, hheld, rfl⟩ := Option.map_eq_some_iff.mp houtcome
      obtain ⟨json, hwrite, _⟩ := hread field.name held field (Entries.mem_of_find? hheld)
        ((TypeSchema.field?_eq_some_iff hdistinct).mpr ⟨hmem, rfl⟩)
      exact ⟨json, hwrite⟩)
  have hfrom : ∀ name json, (name, json) ∈ members → ∃ held field, (name, held) ∈ fields ∧
      declared.field? name = some field ∧ selection.includes field = true ∧
      toJson table selection held = .ok json := by
    intro name json hmem
    obtain ⟨field, hfield, rfl, hincludes, houtcome⟩ := (hmembers name json).mp hmem
    rw [find?_memberJsons] at houtcome
    obtain ⟨held, hheld, hwrite⟩ := Option.map_eq_some_iff.mp houtcome
    exact ⟨held, field, Entries.mem_of_find? hheld,
      (TypeSchema.field?_eq_some_iff hdistinct).mpr ⟨hfield, rfl⟩, hincludes, hwrite⟩
  have hperm := Entries.perm_sorted hmembersNames
  refine ⟨Entries.sorted members, ?_, ?_, Entries.ascending_sorted members, fun name => ?_⟩
  · rw [toJson, hrequire, ok_bind, hselect]
    rfl
  · rw [recordOfJson, hrequire, ok_bind, @fieldsOfJson_eq table declared value _ (.empty typeName)
      (Entries.ascending_sorted members).nodup fun _ _ => rfl]
    · rfl
    · rintro ⟨name, json⟩ hmem
      obtain ⟨held, field, hheld, hfield, _, hwrite⟩ := hfrom name json (hperm.mem_iff.mp hmem)
      obtain ⟨other, hother, hjson, hnull⟩ := hread name held field hheld hfield
      rw [hwrite] at hother
      cases hother
      exact ⟨field, hfield, hjson, hnull⟩
  · constructor
    · intro hname
      obtain ⟨⟨_, json⟩, hmem, rfl⟩ := List.mem_map.mp hname
      obtain ⟨held, field, hheld, hfield, hincludes, _⟩ := hfrom _ json (hperm.mem_iff.mp hmem)
      exact ⟨held, field, hheld, hfield, hincludes⟩
    · rintro ⟨held, field, hheld, hfield, hincludes⟩
      obtain ⟨json, hwrite, _⟩ := hread name held field hheld hfield
      obtain ⟨hfieldMem, hfieldName⟩ := (TypeSchema.field?_eq_some_iff hdistinct).mp hfield
      refine List.mem_map_of_mem (f := Prod.fst) (a := (name, json)) (hperm.mem_iff.mpr
        ((hmembers name json).mpr ⟨field, hfieldMem, hfieldName, hincludes, ?_⟩))
      rw [find?_memberJsons, Entries.find?_of_mem hnames hheld, Option.map_some, hwrite]

/-- A document that reads as a record reads as the value of the record. -/
theorem Codec.ofJson_of_recordOfJson {typeName : String} {json : Json} {record : Record}
    (hread : recordOfJson table typeName json = .ok record) :
    ofJson table (.scalar (.object typeName)) json = .ok record.toValue := by
  cases json with
  | object members =>
    change (do
      let type ← table.requireType typeName
      let record ← fieldsOfJson table type (.empty typeName) members
      return record.toValue) = _
    obtain ⟨type, htype, hfields⟩ := bind_eq_ok_iff.mp hread
    rw [htype, ok_bind, hfields]
    rfl
  | _ => cases hread

/-- What an object keeps under the name of a field. -/
def Value.keptAt (table : TableSchema) (fields : List (String × Value)) (name : String) : Value :=
  ((Entries.find? fields name).map (kept table)).getD .null

theorem Value.keptAt_of_mem {fields : List (String × Value)} {name : String} {held : Value}
    (hnames : (Entries.names fields).Nodup) (hmem : (name, held) ∈ fields) :
    keptAt table fields name = held.kept table := by
  rw [keptAt, Entries.find?_of_mem hnames hmem, Option.map_some, Option.getD_some]

/-- What an object keeps is what is read of the members that are written for it. -/
theorem Codec.ofJson_object {typeName : String} {declared : TypeSchema}
    {fields : List (String × Value)} (haccepted : table.Accepted)
    (hdeclared : table.type? typeName = some declared) (hnames : (Entries.names fields).Nodup)
    (hread : ∀ name value field, (name, value) ∈ fields → declared.field? name = some field →
      value.isNull = false ∧ ∃ json, toJson table .stored value = .ok json ∧
        ofJson table field.type json = .ok (value.kept table)) :
    ∃ json, toJson table .stored (.object typeName fields 0) = .ok json ∧
      ofJson table (.scalar (.object typeName)) json =
        .ok ((Value.object typeName fields 0).kept table) := by
  obtain ⟨members, hwrite, hrecord, hascending, hmembers⟩ :=
    @exists_json_object table .stored typeName declared fields 0 (Value.keptAt table fields)
      haccepted hdeclared hnames fun name held field hmem hfield => by
        obtain ⟨hnull, json, hwrite, hjson⟩ := hread name held field hmem hfield
        rw [Value.keptAt_of_mem hnames hmem]
        exact ⟨json, hwrite, hjson, Value.isNull_kept hnull⟩
  have hkeptNames : (Entries.names (Value.keptFields table (some declared) fields)).Nodup :=
    hnames.sublist (Value.names_keptFields (some declared) fields)
  have hkept : members.map (fun entry => (entry.1, Value.keptAt table fields entry.1)) =
      Entries.sorted (Value.keptFields table (some declared) fields) := by
    refine Entries.Ascending.ext_mem ?_ (Entries.ascending_sorted _) ?_
    · exact List.Pairwise.map _ (fun _ _ hless => hless) hascending
    · rintro ⟨name, other⟩
      rw [(Entries.perm_sorted hkeptNames).mem_iff, Value.mem_keptFields, List.mem_map]
      constructor
      · rintro ⟨⟨key, json⟩, hmem, hsame⟩
        obtain ⟨rfl, rfl⟩ := Prod.mk.inj hsame
        obtain ⟨held, field, hheld, hfield, hpersist⟩ := (hmembers key).mp
          (List.mem_map_of_mem (f := Prod.fst) hmem)
        refine ⟨?_, held, hheld, Value.keptAt_of_mem hnames hheld⟩
        rw [Value.keeps, Option.bind_some, hfield]
        exact hpersist
      · rintro ⟨hkeeps, held, hheld, rfl⟩
        obtain ⟨field, hfield, hpersist⟩ := (Option.any_eq_true _ _).mp hkeeps
        obtain ⟨⟨_, json⟩, hmem, rfl⟩ := List.mem_map.mp
          ((hmembers name).mpr ⟨held, field, hheld, hfield, hpersist⟩)
        exact ⟨_, hmem, by rw [Value.keptAt_of_mem hnames hheld]⟩
  refine ⟨.object members, hwrite, ?_⟩
  rw [ofJson_of_recordOfJson hrecord, hkept, Value.kept, hdeclared]
  rfl

/-- Typed values can be written as JSON, which reads as what is kept of them. -/
theorem Typed.exists_json (haccepted : table.Accepted) (htyped : Typed table type value) :
    ∃ json, Codec.toJson table .stored value = .ok json ∧
      Codec.ofJson table type json = .ok (value.kept table) := by
  induction htyped with
  | string text => exact ⟨.string text, rfl, rfl⟩
  | boolean value => exact ⟨.boolean value, rfl, rfl⟩
  | binary bytes =>
    refine ⟨_, rfl, ?_⟩
    change (do return Value.binary (← List.mapM Codec.byteOfJson _)) = _
    rw [Codec.mapM_byteOfJson]
    rfl
  | integer value hleast hmost =>
    refine ⟨.integer value.toInt, rfl, ?_⟩
    change Except.ok (Value.number ((Codec.numberOfInt value.toInt).narrow .integer)) = _
    rw [Codec.numberOfInt_toInt, Number.narrow, Number.toInt64, Int64.narrow_integer hleast hmost]
    rfl
  | long value =>
    refine ⟨.integer value.toInt, rfl, ?_⟩
    change Except.ok (Value.number ((Codec.numberOfInt value.toInt).narrow .long)) = _
    rw [Codec.numberOfInt_toInt]
    rfl
  | object hdeclared hnames _ htyped _ ih =>
    refine Codec.ofJson_object haccepted hdeclared hnames fun name value field hmem hfield => ?_
    exact ⟨(htyped name value field hmem hfield).isNull, ih name value field hmem hfield⟩
  | list htyped ih =>
    obtain ⟨jsons, hwrite, hread⟩ := Codec.itemsOfJson_of_itemJsons ih
    refine ⟨.array jsons, ?_, ?_⟩
    · rw [Codec.toJson, hwrite]
      rfl
    · change (do return Value.list (← Codec.itemsOfJson table _ jsons)) = _
      rw [hread]
      rfl
  | map hnames htyped ih =>
    obtain ⟨jsons, hwrite, hread, hkept⟩ := Codec.entryJsons_ok ih
    refine ⟨.object (Entries.sorted jsons), ?_, ?_⟩
    · rw [Codec.toJson, hwrite]
      rfl
    · change (do return Value.map (← Codec.entriesOfJson table _ (Entries.sorted jsons))) = _
      rw [Codec.entriesOfJson_eq fun entry hmem => hread entry (Entries.mem_sorted hmem), ok_bind,
        ← Entries.sorted_map, hkept]
      rfl
  | set _ htyped ih =>
    obtain ⟨jsons, hwrite, hread⟩ := Codec.itemsOfJson_of_itemJsons ih
    refine ⟨.array jsons, ?_, ?_⟩
    · rw [Codec.toJson, hwrite]
      rfl
    · change (do return Value.set (← Codec.itemsOfJson table _ jsons)) = _
      rw [hread]
      rfl

end RecordStore
