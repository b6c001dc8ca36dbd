import RecordStore.Proofs.Codec.Width
import RecordStore.Proofs.Codec.Writable
import RecordStore.Proofs.Record.Same

/-!
# Records across JSON

The JSON of a record tells neither a set from a list, bytes from numbers, nor a map from an object.
Reading it in the declared types makes up for that: of a value of a type, what is read equals the
value, through every depth and whether or not its fields are stored.
-/

namespace RecordStore

variable {table : TableSchema} {type : ValueType} {element : ElementType} {value : Value}

/-! ### Records of their declared types -/

/-- That elements of sets are of the declared type, in its width. -/
def Demand.declared : Demand where
  element element value := SetElement element value ∧ Unchecked element value
  keyed _ := True

/-- A record of the root type, at any revision, of which every value is of its declared type. Its
numbers are integral, and elements of lists and maps may be null. -/
structure Record.IsDeclared (table : TableSchema) (record : Record) : Prop where
  root : record.typeName = table.rootType
  fulfils : Fulfils table .declared (.scalar (.object record.typeName))
    (.object record.typeName record.fields 0)
  formed : (Value.object record.typeName record.fields 0).WellFormed

theorem Value.isNull_of_same {left right : Value} (hsame : left == right) :
    left.isNull = right.isNull := by
  cases left <;> cases right <;> simp_all [beq_eq_same, same, isNull]

namespace Codec

/-! ### Scalars -/

/-- The JSON of a value reads in a type as an equal value. -/
def ReadsBack (table : TableSchema) (type : ValueType) (value : Value) : Prop :=
  ∃ json read, toJson table .all value = .ok json ∧ ofJson table type json = .ok read ∧ read == value

theorem readsBack_string (text : String) : ReadsBack table (.scalar .string) (.string text) :=
  ⟨_, _, rfl, rfl, (Value.WellFormed.string text).same_refl⟩

theorem readsBack_binary (bytes : List UInt8) : ReadsBack table (.scalar .binary) (.binary bytes) := by
  refine ⟨_, .binary bytes, rfl, ?_, (Value.WellFormed.binary bytes).same_refl⟩
  change (do return Value.binary (← List.mapM byteOfJson _)) = _
  rw [mapM_byteOfJson]
  rfl

/-- A number that is integral in the width of its type is read as it was written. -/
theorem readsBack_number (hnumeric : element.isNumeric = true) (number : Number)
    (hformed : (Value.number (number.narrow element)).WellFormed) :
    ReadsBack table (.scalar element) (.number (number.narrow element)) := by
  have hsame := hformed.same_refl
  cases element with
  | integer =>
    refine ⟨_, _, rfl, ?_, hsame⟩
    change Except.ok (Value.number ((numberOfInt _).narrow .integer)) = _
    rw [numberOfInt_toInt]
    exact congrArg (fun number => Except.ok (Value.number number)) number.inWidth_narrow
  | long =>
    refine ⟨_, _, rfl, ?_, hsame⟩
    change Except.ok (Value.number ((numberOfInt _).narrow .long)) = _
    rw [numberOfInt_toInt]
    rfl
  | float | double => cases hformed
  | string | boolean | binary | object => cases hnumeric

theorem readsBack_setElement (helement : SetElement element value) (hwidth : Unchecked element value)
    (hformed : value.WellFormed) : ReadsBack table (.scalar element) value := by
  cases helement with
  | string text => exact readsBack_string text
  | binary bytes => exact readsBack_binary bytes
  | number hnumeric =>
    cases hwidth with
    | number number => exact readsBack_number hnumeric number hformed

/-! ### Collections -/

theorem readsBack_items {items : List Value}
    (hitems : ∀ item ∈ items, ReadsBack table (.scalar element) item) :
    ∃ jsons reads, itemJsons table .all items = .ok jsons ∧
      jsons.mapM (ofJson table (.scalar element)) = .ok reads ∧
      List.Forall₂ (fun read item => read == item) reads items := by
  induction items with
  | nil => exact ⟨[], [], rfl, rfl, .nil⟩
  | cons item rest ih =>
    obtain ⟨json, read, hwrite, hread, hsame⟩ := hitems item List.mem_cons_self
    obtain ⟨jsons, reads, hwriteRest, hreadRest, hrest⟩ := ih fun other hmem =>
      hitems other (.tail _ hmem)
    refine ⟨json :: jsons, read :: reads, ?_, ?_, .cons hsame hrest⟩
    · rw [itemJsons, hwrite, ok_bind, hwriteRest]
      rfl
    · rw [List.mapM_cons, hread, ok_bind, hreadRest]
      rfl

theorem readsBack_list {items : List Value}
    (hitems : ∀ item ∈ items, ReadsBack table (.scalar element) item) :
    ReadsBack table ⟨.list, some element⟩ (.list items) := by
  obtain ⟨jsons, reads, hwrite, hread, hsame⟩ := readsBack_items hitems
  refine ⟨.array jsons, .list reads, ?_, ?_, Value.list_same_iff.mpr hsame⟩
  · rw [toJson, hwrite]
    rfl
  · rw [ofJson_list_eq, hread]
    rfl

theorem readsBack_set {elements : List Value}
    (helements : ∀ value ∈ elements, ReadsBack table (.scalar element) value) :
    ReadsBack table ⟨.set, some element⟩ (.set elements) := by
  obtain ⟨jsons, reads, hwrite, hread, hsame⟩ := readsBack_items helements
  refine ⟨.array jsons, .set reads, ?_, ?_, Value.set_same_iff.mpr ⟨hsame.length_eq, ?_, ?_⟩⟩
  · rw [toJson, hwrite]
    rfl
  · rw [ofJson_set_eq, hread]
    rfl
  · exact exists_mem_of_forall₂ hsame.flip
  · exact exists_mem_of_forall₂ hsame

/-- The entries are read in the order of their names, which equality passes over. -/
theorem readsBack_map {entries : List (String × Value)} (hnames : (Entries.names entries).Nodup)
    (hentries : ∀ name value, (name, value) ∈ entries → ReadsBack table (.scalar element) value) :
    ReadsBack table ⟨.map, some element⟩ (.map entries) := by
  obtain ⟨jsons, hwrite⟩ := Entries.exists_mapM fun name value hmem => by
    obtain ⟨json, _, hjson, _⟩ := hentries name value hmem
    exact ⟨json, hjson⟩
  have hascending := Entries.ascending_sorted jsons
  have hjsons : ∀ name value, Entries.find? entries name = some value → ∃ json read,
      Entries.find? (Entries.sorted jsons) name = some json ∧
      ofJson table (.scalar element) json = .ok read ∧ read == value := by
    intro name value hfind
    obtain ⟨json, read, hjson, hread, hsame⟩ := hentries name value (Entries.mem_of_find? hfind)
    have hwritten := Entries.find?_of_mapM hwrite name
    rw [hfind] at hwritten
    obtain ⟨_, hother, hfound⟩ := hwritten
    cases hjson.symm.trans hother
    rw [← Entries.names_of_mapM hwrite] at hnames
    exact ⟨json, read, (Entries.find?_sorted hnames name).trans hfound, hread, hsame⟩
  have habsent : ∀ name, Entries.find? entries name = none →
      Entries.find? (Entries.sorted jsons) name = none := by
    intro name hfind
    have hwritten := Entries.find?_of_mapM hwrite name
    rw [← Entries.names_of_mapM hwrite] at hnames
    rw [hfind] at hwritten
    exact (Entries.find?_sorted hnames name).trans hwritten
  obtain ⟨reads, hread⟩ := @Entries.exists_mapM _ _ (ofJson table (.scalar element))
    (Entries.sorted jsons) fun name json hmem => by
      cases hfind : Entries.find? entries name with
      | none => cases (habsent name hfind).symm.trans (hascending.mem_iff.mp hmem)
      | some value =>
        obtain ⟨_, read, hfound, hread, _⟩ := hjsons name value hfind
        cases (hascending.mem_iff.mp hmem).symm.trans hfound
        exact ⟨read, hread⟩
  have hreads : (Entries.names reads).Nodup := by
    rw [Entries.names_of_mapM hread]
    exact hascending.nodup
  refine ⟨.object (Entries.sorted jsons), .map reads, ?_, ?_,
    (Value.map_same_iff hreads hnames).mpr fun name => ?_⟩
  · rw [toJson, entryJsons_eq, hwrite]
    rfl
  · rw [ofJson_map_eq, hread]
    rfl
  · have hresult := Entries.find?_of_mapM hread name
    cases hfind : Entries.find? entries name with
    | none =>
      rw [habsent name hfind] at hresult
      rw [hresult]
      exact .none
    | some value =>
      obtain ⟨json, read, hfound, hvalue, hsame⟩ := hjsons name value hfind
      rw [hfound] at hresult
      obtain ⟨other, hother, hresult⟩ := hresult
      cases hvalue.symm.trans hother
      rw [hresult]
      exact .some hsame

/-! ### Objects -/

/-- An object of which every value reads back reads back field by field, at revision 0. -/
theorem readsBack_fields {typeName : String} {declared : TypeSchema}
    {fields : List (String × Value)} (revision : Int64) (haccepted : table.Accepted)
    (hdeclared : table.type? typeName = some declared) (hnames : (Entries.names fields).Nodup)
    (hpresent : ∀ name value, (name, value) ∈ fields → value.isNull = false)
    (hknown : ∀ name ∈ Entries.names fields, (declared.field? name).isSome = true)
    (hfields : ∀ name value field, (name, value) ∈ fields → declared.field? name = some field →
      ReadsBack table field.type value) :
    ∃ json record, toJson table .all (.object typeName fields revision) = .ok json ∧
      recordOfJson table typeName json = .ok record ∧
      record.toValue == .object typeName fields 0 := by
  have hreadsBack : ∀ name, ∃ read, ∀ value field, (name, value) ∈ fields →
      declared.field? name = some field → ∃ json, toJson table .all value = .ok json ∧
        ofJson table field.type json = .ok read ∧ read == value := by
    intro name
    by_cases hheld : ∃ value field, (name, value) ∈ fields ∧ declared.field? name = some field
    · obtain ⟨value, field, hmem, hfield⟩ := hheld
      obtain ⟨json, read, hwrite, hread, hsame⟩ := hfields name value field hmem hfield
      refine ⟨read, fun other otherField hother hotherField => ?_⟩
      cases hfield.symm.trans hotherField
      cases (Entries.find?_of_mem hnames hmem).symm.trans (Entries.find?_of_mem hnames hother)
      exact ⟨json, hwrite, hread, hsame⟩
    · exact ⟨.null, fun value field hmem hfield => absurd ⟨value, field, hmem, hfield⟩ hheld⟩
  choose read hread using hreadsBack
  obtain ⟨members, hwrite, hrecord, hascending, hmembers⟩ :=
    @exists_json_object table .all typeName declared fields revision read haccepted hdeclared
      hnames fun name value field hmem hfield => by
        obtain ⟨json, hwrite, hjson, hsame⟩ := hread name value field hmem hfield
        exact ⟨json, hwrite, hjson, (Value.isNull_of_same hsame).trans (hpresent name value hmem)⟩
  refine ⟨.object members, _, hwrite, hrecord, ?_⟩
  have hreads : Entries.Ascending (members.map fun entry => (entry.1, read entry.1)) :=
    List.Pairwise.map _ (fun _ _ hless => hless) hascending
  refine (Value.object_same_iff hreads.nodup hnames).mpr ⟨rfl, fun name => ?_, rfl⟩
  cases hfind : Entries.find? fields name with
  | some value =>
    have hmem := Entries.mem_of_find? hfind
    obtain ⟨field, hfield⟩ := Option.isSome_iff_exists.mp
      (hknown name (List.mem_map_of_mem (f := Prod.fst) hmem))
    obtain ⟨_, _, _, hsame⟩ := hread name value field hmem hfield
    obtain ⟨⟨_, json⟩, hmember, rfl⟩ := List.mem_map.mp
      ((hmembers name).mpr ⟨value, field, hmem, hfield, rfl⟩)
    rw [hreads.mem_iff.mp (List.mem_map.mpr ⟨_, hmember, rfl⟩)]
    exact .some hsame
  | none =>
    rw [Entries.find?_eq_none_iff.mpr]
    · exact .none
    · intro entry hmem hname
      obtain ⟨member, hmember, rfl⟩ := List.mem_map.mp hmem
      obtain ⟨value, _, hheld, _⟩ := (hmembers name).mp (List.mem_map.mpr ⟨member, hmember, hname⟩)
      exact Entries.find?_eq_none_iff.mp hfind _ hheld rfl

end Codec

/-! ### Records -/

/-- What is read of the JSON of a value of a type equals the value. -/
theorem Fulfils.readsBack (haccepted : table.Accepted) (hfulfils : Fulfils table .declared type value)
    (hformed : value.WellFormed) : Codec.ReadsBack table type value := by
  induction hfulfils with
  | null element => exact ⟨.null, .null, rfl, rfl, hformed.same_refl⟩
  | string text => exact Codec.readsBack_string text
  | boolean value => exact ⟨.boolean value, .boolean value, rfl, rfl, hformed.same_refl⟩
  | binary bytes => exact Codec.readsBack_binary bytes
  | number hnumeric number => exact Codec.readsBack_number hnumeric number hformed
  | object hdeclared hpresent hknown _ _ ih =>
    cases hformed with
    | object hnames hvalues =>
      obtain ⟨json, record, hwrite, hread, hsame⟩ := Codec.readsBack_fields 0 haccepted hdeclared
        hnames hpresent hknown fun name value field hmem hfield =>
          ih name value field hmem hfield (hvalues name value hmem)
      exact ⟨json, record.toValue, hwrite, Codec.ofJson_of_recordOfJson hread, hsame⟩
  | list _ ih =>
    cases hformed with
    | list hvalues => exact Codec.readsBack_list fun item hmem => ih item hmem (hvalues item hmem)
  | map _ ih =>
    cases hformed with
    | map hnames hvalues =>
      exact Codec.readsBack_map hnames fun name value hmem =>
        ih name value hmem (hvalues name value hmem)
  | set hadmitted =>
    cases hformed with
    | set hvalues =>
      refine Codec.readsBack_set fun value hmem => ?_
      obtain ⟨helement, hwidth⟩ := hadmitted value hmem
      exact Codec.readsBack_setElement helement hwidth (hvalues value hmem)

/-- A record of its declared types can be written as JSON, and what is read of that equals the
record at revision 0. -/
theorem Record.ofJson_toJson {description : TableDescription} {record : Record}
    (hresolve : description.resolve = .ok table) (hrecord : record.IsDeclared table) :
    ∃ json read, record.toJson table = .ok json ∧ Record.ofJson table json = .ok read ∧
      read == { record with revision := 0 } := by
  have haccepted := TableDescription.accepted_of_resolve hresolve
  obtain ⟨typeName, fields, revision⟩ := record
  obtain ⟨hroot, hfulfils, hformed⟩ := hrecord
  cases hroot
  cases hfulfils with
  | object hdeclared hpresent hknown hfields =>
    cases hformed with
    | object hnames hvalues =>
      exact Codec.readsBack_fields revision haccepted hdeclared hnames hpresent hknown
        fun name value field hmem hfield =>
          (hfields name value field hmem hfield).readsBack haccepted (hvalues name value hmem)

/-! ### Albums -/

/-- The description of a table of albums: who opened one last is not stored. -/
def albumDescription : TableDescription where
  name := "albums"
  namespaceName := ""
  rootType := "Album"
  hashKey := "title"
  rangeKey := none
  version := 1
  optimisticLocking := false
  migrations := false
  versionAttribute := none
  revisionAttribute := none
  types := [
    ⟨"Album", [
      ⟨"title", none, .scalar, some .string, none, true, true, false, false, false, false, false⟩,
      ⟨"cover", none, .scalar, some .binary, none, true, true, false, false, false, false, false⟩,
      ⟨"tags", none, .set, some .string, none, true, true, false, false, false, false, false⟩,
      ⟨"scores", none, .list, some .integer, none, true, true, false, false, false, false, false⟩,
      ⟨"sides", none, .map, some (.object "Track"), none, true, true, false, false, true, false,
        false⟩,
      ⟨"opened", none, .scalar, some .long, none, false, false, false, false, false, false, false⟩]⟩,
    ⟨"Track", [
      ⟨"name", none, .scalar, some .string, none, true, true, false, false, false, false, false⟩]⟩]
  indexes := []

def albumType : TypeSchema :=
  ⟨"Album", [
    ⟨"title", "title", .scalar .string, none, true, true, false, false, false, false, false⟩,
    ⟨"cover", "cover", .scalar .binary, none, true, true, false, false, false, false, false⟩,
    ⟨"tags", "tags", ⟨.set, some .string⟩, none, true, true, false, false, false, false, false⟩,
    ⟨"scores", "scores", ⟨.list, some .integer⟩, none, true, true, false, false, false, false,
      false⟩,
    ⟨"sides", "sides", ⟨.map, some (.object "Track")⟩, none, true, true, false, false, true, false,
      false⟩,
    ⟨"opened", "opened", .scalar .long, none, false, false, false, false, false, false, false⟩]⟩

def trackType : TypeSchema :=
  ⟨"Track", [⟨"name", "name", .scalar .string, none, true, true, false, false, false, false, false⟩]⟩

def albumTable : TableSchema where
  name := "albums"
  namespaceName := ""
  rootType := "Album"
  version := 1
  optimisticLocking := false
  migrationsEnabled := false
  versionAttribute := "_v"
  revisionAttribute := "_rev"
  keys := ⟨⟨"title", "title", .string⟩, none⟩
  indexes := []
  expiryAttribute := none
  types := [albumType, trackType]

/-- An album with a side that is left out, and a score that was not given. -/
def album : Record :=
  ⟨"Album", [("title", .string "North"), ("opened", .number (.integer 1700000000000)),
    ("tags", .set [.string "live", .string "1970"]), ("cover", .binary [137, 80]),
    ("scores", .list [.number (.integer (-3)), .null]),
    ("sides", .map [("b", .null), ("a", .object "Track" [("name", .string "Gale")] 0)])], 4⟩

theorem fulfils_track (name : String) :
    Fulfils albumTable .declared (.scalar (.object "Track"))
      (.object "Track" [("name", .string name)] 0) := by
  refine @Fulfils.object albumTable _ "Track" trackType _ rfl ?_ (by simp [Entries.names]; decide)
    ?_ fun _ _ _ _ _ _ _ _ _ => trivial
  · intro key value hmem
    cases List.mem_singleton.mp hmem
    rfl
  · intro key value field hmem hfield
    cases List.mem_singleton.mp hmem
    cases hfield
    exact .string name

theorem fulfils_sides : Fulfils albumTable .declared ⟨.map, some (.object "Track")⟩
    (.map [("b", .null), ("a", .object "Track" [("name", .string "Gale")] 0)]) := by
  refine .map fun name value hmem => ?_
  rcases List.mem_cons.mp hmem with hside | hmem
  · cases hside
    exact .null _
  · cases List.mem_singleton.mp hmem
    exact fulfils_track "Gale"

theorem fulfils_album : Fulfils albumTable .declared (.scalar (.object "Album"))
    (.object "Album" album.fields 0) := by
  refine @Fulfils.object albumTable _ "Album" albumType _ rfl ?_ (by decide) ?_
    fun _ _ _ _ _ _ _ _ _ => trivial
  · intro name value hmem
    simp only [album, List.mem_cons, List.not_mem_nil, or_false, Prod.mk.injEq] at hmem
    obtain ⟨-, rfl⟩ | ⟨-, rfl⟩ | ⟨-, rfl⟩ | ⟨-, rfl⟩ | ⟨-, rfl⟩ | ⟨-, rfl⟩ := hmem <;> rfl
  · intro name value field hmem hfield
    simp only [album, List.mem_cons, List.not_mem_nil, or_false, Prod.mk.injEq] at hmem
    obtain ⟨rfl, rfl⟩ | ⟨rfl, rfl⟩ | ⟨rfl, rfl⟩ | ⟨rfl, rfl⟩ | ⟨rfl, rfl⟩ | ⟨rfl, rfl⟩ := hmem <;>
      cases hfield
    · exact .string "North"
    · exact .number rfl (.integer 1700000000000)
    · refine .set fun tag htag => ?_
      rcases List.mem_cons.mp htag with rfl | htag
      · exact ⟨.string "live", .string "live"⟩
      · rw [List.mem_singleton.mp htag]
        exact ⟨.string "1970", .string "1970"⟩
    · exact .binary [137, 80]
    · refine .list fun score hscore => ?_
      rcases List.mem_cons.mp hscore with rfl | hscore
      · exact .number rfl (.integer (-3))
      · rw [List.mem_singleton.mp hscore]
        exact .null _
    · exact fulfils_sides

theorem wellFormed_album : (Value.object "Album" album.fields 0).WellFormed := by
  refine .object (by decide) fun name value hmem => ?_
  simp only [album, List.mem_cons, List.not_mem_nil, or_false, Prod.mk.injEq] at hmem
  obtain ⟨-, rfl⟩ | ⟨-, rfl⟩ | ⟨-, rfl⟩ | ⟨-, rfl⟩ | ⟨-, rfl⟩ | ⟨-, rfl⟩ := hmem
  · exact .string "North"
  · exact .number 1700000000000
  · exact .set (List.forall_mem_cons.mpr ⟨.string "live", List.forall_mem_singleton.mpr
      (.string "1970")⟩)
  · exact .binary [137, 80]
  · exact .list (List.forall_mem_cons.mpr ⟨.number (-3), List.forall_mem_singleton.mpr .null⟩)
  · refine .map (by decide) fun side held hside => ?_
    rcases List.mem_cons.mp hside with hsame | hside
    · cases hsame
      exact .null
    · cases List.mem_singleton.mp hside
      refine .object (by decide) fun key text hkey => ?_
      cases List.mem_singleton.mp hkey
      exact .string "Gale"

theorem Record.ofJson_toJson_album : ∃ json read, album.toJson albumTable = .ok json ∧
    Record.ofJson albumTable json = .ok read ∧ read == { album with revision := 0 } :=
  @Record.ofJson_toJson albumTable albumDescription album rfl
    ⟨rfl, fulfils_album, wellFormed_album⟩

end RecordStore
