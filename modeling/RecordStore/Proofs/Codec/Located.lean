import RecordStore.Expression.Path
import RecordStore.Proofs.Cell
import RecordStore.Proofs.Codec.Parts
import RecordStore.Proofs.Record.Same

/-!
# Values at logical paths

A logical path is resolved along the declared types, and a record is stored along its values. The two
agree: through fields that are stored plainly, the attribute at the resolved path is what is stored of
the value that the logical path denotes.
-/

namespace RecordStore

variable {table : TableSchema} {type found : ValueType} {value : Value}

/-! ### Values within a value -/

namespace Value

/-- What is held under a name: by an object in a field that is set, by a map as an entry. -/
def member? : Value → String → Option Value
  | .object _ fields _, name => (Entries.find? fields name).filter fun value => !value.isNull
  | .map entries, name => Entries.find? entries name
  | _, _ => none

/-- The value that is denoted by a path of names, if it is set. -/
def at? (value : Value) : List String → Option Value
  | [] => some value
  | name :: rest => (value.member? name).bind fun member => member.at? rest

/-- The names under which a value holds others. -/
def memberNames : Value → List String
  | .object _ fields _ => Entries.names fields
  | .map entries => Entries.names entries
  | _ => []

/-- At no depth, a name comes twice. -/
def NamesDistinct (value : Value) : Prop :=
  ∀ path held, value.at? path = some held → held.memberNames.Nodup

theorem NamesDistinct.nodup (hnames : value.NamesDistinct) : value.memberNames.Nodup :=
  hnames [] value rfl

theorem NamesDistinct.member {name : String} {member : Value} (hnames : value.NamesDistinct)
    (hmember : value.member? name = some member) : member.NamesDistinct := by
  intro path held hheld
  refine hnames (name :: path) held ?_
  rw [at?, hmember]
  exact hheld

theorem WellFormed.member {name : String} {member : Value} (hvalue : value.WellFormed)
    (hmember : value.member? name = some member) : member.WellFormed := by
  cases hvalue with
  | object _ hvalues =>
    exact hvalues name member (Entries.mem_of_find? (Option.filter_eq_some_iff.mp hmember).1)
  | map _ hvalues => exact hvalues name member (Entries.mem_of_find? hmember)
  | _ => cases hmember

theorem WellFormed.namesDistinct (hvalue : value.WellFormed) : value.NamesDistinct := by
  intro path held hheld
  induction path generalizing value with
  | nil =>
    cases hheld
    cases hvalue with
    | object hnames => exact hnames
    | map hnames => exact hnames
    | _ => exact List.nodup_nil
  | cons name rest ih =>
    obtain ⟨member, hmember, hheld⟩ := Option.bind_eq_some_iff.mp hheld
    exact ih (hvalue.member hmember) hheld

end Value

/-! ### Steps of a path -/

/-- A step into a field of an object, or into an entry of a map. -/
inductive PathStep where
  | field (field : FieldSchema)
  | entry (name : String)

namespace PathStep

/-- How a logical path names the step. -/
def segment : PathStep → String
  | .field declared => declared.name
  | .entry name => name

/-- How the step is named where it is stored. -/
def wireName : PathStep → String
  | .field declared => declared.wireName
  | .entry name => name

/-- A field that is stored as it is, neither compressed nor by the ids of its items. -/
def IsPlain : PathStep → Prop
  | .field declared =>
    declared.persist = true ∧ declared.compress = false ∧ declared.rekeyById = false
  | .entry _ => True

end PathStep

/-- From the values of a type, a step leads to the values of another one. -/
inductive TableSchema.StepsTo (table : TableSchema) : ValueType → PathStep → ValueType → Prop where
  | field {typeName : String} {type : TypeSchema} {field : FieldSchema}
    (declared : table.type? typeName = some type) (held : type.field? field.name = some field) :
    StepsTo table (.scalar (.object typeName)) (.field field) field.type
  | entry {element : ElementType} (name : String) :
    StepsTo table ⟨.map, some element⟩ (.entry name) (.scalar element)

/-- From the values of a type, steps lead to the values of another one. -/
inductive TableSchema.Leads (table : TableSchema) :
    ValueType → List PathStep → ValueType → Prop where
  | here (type : ValueType) : Leads table type [] type
  | cons {type next found : ValueType} {step : PathStep} {rest : List PathStep}
    (first : table.StepsTo type step next) (leads : Leads table next rest found) :
    Leads table type (step :: rest) found

theorem TableSchema.Leads.isPlain {steps : List PathStep} (hleads : table.Leads type steps found)
    (hfields : ∀ declared ∈ table.types, ∀ field ∈ declared.fields,
      (PathStep.field field).IsPlain) :
    ∀ step ∈ steps, step.IsPlain := by
  induction hleads with
  | here => exact fun _ hmem => nomatch hmem
  | cons hstep _ ih =>
    refine List.forall_mem_cons.mpr ⟨?_, ih⟩
    cases hstep with
    | field hdeclared hheld =>
      exact hfields _ (List.mem_of_find?_eq_some hdeclared) _ (List.mem_of_find?_eq_some hheld)
    | entry => trivial

/-! ### Along the stored value -/

namespace Codec

theorem find?_encodeFields_of_unset {fields : List (String × Value)} {name : String}
    (hnames : (Entries.names fields).Nodup)
    (hunset : (Entries.find? fields name).filter (fun value => !value.isNull) = none) :
    Entries.find? (encodeFields table fields) name = none := by
  by_contra hsome
  obtain ⟨store, hstore⟩ := Option.ne_none_iff_exists'.mp hsome
  obtain ⟨value, hmem, hvalue, _⟩ := exists_of_find?_encodeFields hstore
  rw [Entries.find?_of_mem hnames hmem] at hunset
  simp [hvalue] at hunset

/-- What is stored of a field of an object, under its attribute. -/
theorem mapM_encode_field {typeName : String} {declared : TypeSchema} {field : FieldSchema}
    {fields : List (String × Value)} {revision : Int64} {item : Item} (haccepted : table.Accepted)
    (hdeclared : table.type? typeName = some declared)
    (hfield : declared.field? field.name = some field)
    (hplain : (PathStep.field field).IsPlain) (hnames : (Entries.names fields).Nodup)
    (hstore : storeObject declared (Entries.names fields) (encodeFields table fields) = .ok item) :
    ((Value.object typeName fields revision).member? field.name).mapM
      (encode table .plain field.type) = .ok (Item.get? item field.wireName) := by
  obtain ⟨_, _, hmembers⟩ := bind_eq_ok_iff.mp hstore
  obtain ⟨hpersist, hcompress, hrekey⟩ := hplain
  have hdistinct := haccepted.fields _ (List.mem_of_find?_eq_some hdeclared)
  have hmem := ((TypeSchema.field?_eq_some_iff hdistinct.names).mp hfield).1
  rw [Value.member?]
  cases hheld : (Entries.find? fields field.name).filter (fun value => !value.isNull) with
  | none =>
    rw [get?_storeMembers_of_unset hmembers hdistinct.wireNames hmem hpersist
      (find?_encodeFields_of_unset hnames hheld)]
    rfl
  | some value =>
    obtain ⟨hfind, hvalue⟩ := Option.filter_eq_some_iff.mp hheld
    obtain ⟨stored, hstored, hget⟩ := get?_storeMembers hmembers hdistinct.wireNames hmem hpersist
      (find?_encodeFields hfind (by simpa using hvalue))
    have hstorage : field.storage = .plain := by
      rw [FieldSchema.storage, hcompress, hrekey]
      rfl
    rw [encodeField, hstorage] at hstored
    rw [hget, Option.mapM_some, hstored]
    rfl

/-- What is stored of an entry of a map, under its name. -/
theorem mapM_encode_entry {element : ElementType} {entries : List (String × Value)}
    {stored : List (String × Attribute)} (name : String) (hnames : (Entries.names entries).Nodup)
    (hstored : Entries.mapM (encode table .plain (.scalar element)) entries = .ok stored) :
    (Entries.find? entries name).mapM (encode table .plain (.scalar element)) =
      .ok (Item.get? (Item.ofEntries stored) name) := by
  have hresult := Entries.find?_of_mapM hstored name
  rw [← Entries.names_of_mapM hstored] at hnames
  change _ = Except.ok (Entries.find? (Entries.sorted stored) name)
  rw [Entries.find?_sorted hnames]
  cases hfind : Entries.find? entries name with
  | none =>
    rw [hfind] at hresult
    rw [hresult]
    rfl
  | some value =>
    rw [hfind] at hresult
    obtain ⟨result, hvalue, hresult⟩ := hresult
    rw [hresult, Option.mapM_some, hvalue]
    rfl

/-- A plain step into a value leads to what is stored of the value that it is a step to. -/
theorem mapM_encode_member {next : ValueType} {step : PathStep} {stored : Attribute}
    (haccepted : table.Accepted) (hstep : table.StepsTo type step next) (hplain : step.IsPlain)
    (hnames : value.memberNames.Nodup) (hstored : encode table .plain type value = .ok stored) :
    (value.member? step.segment).mapM (encode table .plain next) =
      .ok (Cell.read (some stored) [step.wireName]) := by
  cases hstep with
  | field hdeclared hfield =>
    cases value with
    | null =>
      cases hstored
      rfl
    | object =>
      obtain rfl := typeName_of_encode hstored
      rw [encode_object_eq, TableSchema.requireType_eq_ok_iff.mpr hdeclared, ok_bind] at hstored
      obtain ⟨item, hitem, rfl⟩ := map_eq_ok_iff.mp hstored
      exact mapM_encode_field haccepted hdeclared hfield hplain hnames hitem
    | _ => cases hstored
  | entry name =>
    cases value with
    | null =>
      cases hstored
      rfl
    | map entries =>
      rw [encode_map_eq] at hstored
      obtain ⟨entries, hentries, rfl⟩ := map_eq_ok_iff.mp hstored
      exact mapM_encode_entry name hnames hentries
    | _ => cases hstored

/-- What follows of a path after its first step, below what that step leads to. -/
theorem mapM_encode_at {next : ValueType} {step : PathStep} {rest : List PathStep}
    {cell : Option Attribute}
    (hfirst : (value.member? step.segment).mapM (encode table .plain next) = .ok cell)
    (hrest : ∀ member stored, value.member? step.segment = some member →
      encode table .plain next member = .ok stored →
      (member.at? (rest.map PathStep.segment)).mapM (encode table .plain found) =
        .ok (Cell.read (some stored) (rest.map PathStep.wireName))) :
    (value.at? ((step :: rest).map PathStep.segment)).mapM (encode table .plain found) =
      .ok (Cell.read cell (rest.map PathStep.wireName)) := by
  rw [List.map_cons, Value.at?]
  cases hmember : value.member? step.segment with
  | none =>
    rw [hmember] at hfirst
    cases hfirst
    cases rest <;> rfl
  | some member =>
    rw [hmember, Option.mapM_some] at hfirst
    obtain ⟨stored, hstored, hcell⟩ := bind_eq_ok_iff.mp hfirst
    cases hcell
    exact hrest member stored hmember hstored

/-- Plain steps lead to what is stored of the value that they are steps to. -/
theorem mapM_encode_leads {steps : List PathStep} {stored : Attribute} (haccepted : table.Accepted)
    (hleads : table.Leads type steps found) (hplain : ∀ step ∈ steps, step.IsPlain)
    (hnames : value.NamesDistinct) (hstored : encode table .plain type value = .ok stored) :
    (value.at? (steps.map PathStep.segment)).mapM (encode table .plain found) =
      .ok (Cell.read (some stored) (steps.map PathStep.wireName)) := by
  induction hleads generalizing value stored with
  | here type =>
    rw [List.map_nil, Value.at?, Option.mapM_some, hstored, List.map_nil, Cell.read_nil]
    rfl
  | cons hstep _ ih =>
    obtain ⟨hfirst, hrest⟩ := List.forall_mem_cons.mp hplain
    have hmember := mapM_encode_member haccepted hstep hfirst hnames.nodup hstored
    rw [mapM_encode_at hmember fun member _ hheld => ih hrest (hnames.member hheld),
      ← Cell.read_append, List.singleton_append, List.map_cons]

end Codec

/-! ### Along the declared types -/

/-- What can be named within the values of a type. -/
inductive PathScope.Within (table : TableSchema) : ValueType → PathScope → Prop where
  | fields {typeName : String} {type : TypeSchema}
    (declared : table.type? typeName = some type) :
    Within table (.scalar (.object typeName)) (.fields type)
  | entries (element : ElementType) : Within table ⟨.map, some element⟩ (.entries element)
  | nothing (type : ValueType) : Within table type .nothing

namespace PathScope

variable {scope : PathScope}

theorem within_ofElement {element : ElementType} (hscope : ofElement table element = .ok scope) :
    Within table (.scalar element) scope := by
  cases element with
  | object typeName =>
    obtain ⟨declared, hdeclared, rfl⟩ := map_eq_ok_iff.mp hscope
    exact .fields (TableSchema.requireType_eq_ok_iff.mp hdeclared)
  | _ =>
    cases hscope
    exact .nothing _

theorem within_ofField {field : FieldSchema} (hscope : ofField table field = .ok scope) :
    Within table field.type scope := by
  unfold ofField at hscope
  rcases hfield : field.type with ⟨kind, element⟩
  rw [hfield] at hscope
  cases kind <;> cases element
  case scalar.some => exact within_ofElement hscope
  case map.some =>
    cases hscope
    exact .entries _
  all_goals
    cases hscope
    exact .nothing _

end PathScope

namespace TableSchema

/-- A segment names a step, unless it names a counter. -/
theorem exists_step {path segment name : String} {isFirst : Bool} {scope next : PathScope}
    (hwithin : scope.Within table type)
    (hfirst : isFirst = true → ∀ declared, scope = .fields declared →
      ∃ field, declared.field? segment = some field)
    (hresolve : table.resolveSegment path isFirst scope segment = .ok (name, next)) :
    ∃ step later, table.StepsTo type step later ∧ step.segment = segment ∧ step.wireName = name ∧
      next.Within table later := by
  unfold resolveSegment at hresolve
  split at hresolve
  · cases hresolve
  cases hwithin with
  | fields hdeclared =>
    rename_i declared
    dsimp only at hresolve
    cases hfield : declared.field? segment with
    | some field =>
      rw [hfield] at hresolve
      obtain ⟨later, hlater, hdone⟩ := bind_eq_ok_iff.mp hresolve
      cases hdone
      have hname : field.name = segment := by simpa using List.find?_some hfield
      exact ⟨.field field, field.type, .field hdeclared (hname ▸ hfield), hname, rfl,
        PathScope.within_ofField hlater⟩
    | none =>
      rw [hfield] at hresolve
      cases isFirst with
      | false => cases hresolve
      | true =>
        obtain ⟨field, hsome⟩ := hfirst rfl declared rfl
        cases hfield.symm.trans hsome
  | entries element =>
    obtain ⟨later, hlater, hdone⟩ := bind_eq_ok_iff.mp hresolve
    cases hdone
    exact ⟨.entry segment, .scalar element, .entry segment, rfl, rfl,
      PathScope.within_ofElement hlater⟩
  | nothing => cases hresolve

/-- The segments of a path that is resolved name steps along the declared types. -/
theorem exists_leads {path : String} {isFirst : Bool} {scope : PathScope}
    {segments names : List String}
    (hwithin : scope.Within table type)
    (hfirst : isFirst = true → ∀ segment declared, segments.head? = some segment →
      scope = .fields declared → ∃ field, declared.field? segment = some field)
    (hresolve : table.resolveSegments path isFirst scope segments = .ok names) :
    ∃ steps found, table.Leads type steps found ∧ steps.map PathStep.segment = segments ∧
      steps.map PathStep.wireName = names := by
  induction segments generalizing type isFirst scope names with
  | nil =>
    cases hresolve
    exact ⟨[], type, .here type, rfl, rfl⟩
  | cons segment rest ih =>
    obtain ⟨⟨name, next⟩, hname, hresolve⟩ := bind_eq_ok_iff.mp hresolve
    obtain ⟨others, hothers, hdone⟩ := bind_eq_ok_iff.mp hresolve
    cases hdone
    obtain ⟨step, later, hstep, rfl, rfl, hlater⟩ := exists_step hwithin
      (fun hsome declared => hfirst hsome segment declared rfl) hname
    obtain ⟨steps, found, hleads, rfl, rfl⟩ := ih hlater
      (fun hsome : false = true => nomatch hsome) hothers
    exact ⟨step :: steps, found, .cons hstep hleads, rfl, rfl⟩

end TableSchema

/-! ### Stored records -/

/-- A logical path that begins with a declared field is resolved step by step along the declared
types. When all the steps are plain, what a stored record holds at the resolved path is what is
stored, in the type that the steps lead to, of the value that the path denotes in the record; and it
holds nothing there when that value is not set. -/
theorem Record.resolve?_toItem {description : TableDescription} {record : Record} {item : Item}
    {path first : String} {rest names : List String} {field : FieldSchema}
    (hresolve : description.resolve = .ok table) (hdistinct : record.toValue.NamesDistinct)
    (hstore : record.toItem table = .ok item) (hpath : table.resolvePath path = .ok names)
    (hsegments : Path.segments [] path.toList = first :: rest)
    (hfirst : table.root.field? first = some field) :
    ∃ steps found, table.Leads (.scalar (.object table.rootType)) steps found ∧
      steps.map PathStep.segment = first :: rest ∧ steps.map PathStep.wireName = names ∧
      ((∀ step ∈ steps, step.IsPlain) →
        (record.toValue.at? (first :: rest)).mapM (Codec.encode table .plain found) =
          .ok (Item.resolve? item names)) := by
  have haccepted := TableDescription.accepted_of_resolve hresolve
  rw [TableSchema.resolvePath, hsegments] at hpath
  obtain ⟨steps, found, hleads, hsteps, rfl⟩ := TableSchema.exists_leads
    (.fields haccepted.root_eq) (fun _ segment declared hhead hscope => by
      cases hhead
      cases hscope
      exact ⟨field, hfirst⟩) hpath
  refine ⟨steps, found, hleads, hsteps, rfl, fun hplain => ?_⟩
  obtain ⟨object, hobject, hget⟩ := Record.get?_toItem_eq haccepted hstore
  have hstored : Codec.encode table .plain (.scalar (.object table.rootType)) record.toValue =
      .ok (.map object) := by
    rw [Record.toValue, Record.typeName_of_toItem hstore, Codec.encode_object_eq,
      TableSchema.requireType_eq_ok_iff.mpr haccepted.root_eq, ok_bind]
    exact congrArg (Except.map Attribute.map) hobject
  rw [← hsteps, Codec.mapM_encode_leads haccepted hleads hplain hdistinct hstored]
  -- The counters that a stored record carries besides its object are named by no field.
  cases hleads with
  | here => cases hsteps
  | cons hstep =>
    cases hstep with
    | field hdeclared hheld =>
      cases haccepted.root_eq.symm.trans hdeclared
      have hmem := ((TypeSchema.field?_eq_some_iff haccepted.root_distinct.names).mp hheld).1
      have hpersist := (hplain _ List.mem_cons_self).1
      rw [List.map_cons, Item.resolve?_eq_read, Cell.read_map, Cell.read_map]
      exact congrArg (fun cell => Except.ok (Cell.read cell _)) (hget _ hmem hpersist).symm

/-! ### Contacts -/

/-- The description of a table of contacts, of which every attribute has a short name. -/
def contactDescription : TableDescription where
  name := "contacts"
  namespaceName := ""
  rootType := "Contact"
  hashKey := "id"
  rangeKey := none
  version := 1
  optimisticLocking := true
  migrations := false
  versionAttribute := none
  revisionAttribute := none
  types := [
    ⟨"Contact", [
      ⟨"id", some "i", .scalar, some .string, none, true, true, false, false, false, false, false⟩,
      ⟨"homes", some "h", .map, some (.object "Address"), none, true, true, false, false, false,
        false, false⟩]⟩,
    ⟨"Address", [
      ⟨"city", some "c", .scalar, some .string, none, true, true, false, false, false, false,
        false⟩]⟩]
  indexes := []

def contactType : TypeSchema :=
  ⟨"Contact", [
    ⟨"id", "i", .scalar .string, none, true, true, false, false, false, false, false⟩,
    ⟨"homes", "h", ⟨.map, some (.object "Address")⟩, none, true, true, false, false, false, false,
      false⟩]⟩

def addressType : TypeSchema :=
  ⟨"Address", [⟨"city", "c", .scalar .string, none, true, true, false, false, false, false, false⟩]⟩

def contactTable : TableSchema where
  name := "contacts"
  namespaceName := ""
  rootType := "Contact"
  version := 1
  optimisticLocking := true
  migrationsEnabled := false
  versionAttribute := "_v"
  revisionAttribute := "_rev"
  keys := ⟨⟨"id", "i", .string⟩, none⟩
  indexes := []
  expiryAttribute := none
  types := [contactType, addressType]

def contact : Record :=
  ⟨"Contact", [("id", .string "1"),
    ("homes", .map [("work", .object "Address" [("city", .string "Bern")] 0)])], 2⟩

theorem wellFormed_contact : contact.toValue.WellFormed := by
  refine .object (by decide) fun name value hmem => ?_
  rcases List.mem_cons.mp hmem with hid | hmem
  · cases hid
    exact .string "1"
  · cases List.mem_singleton.mp hmem
    refine .map (by decide) fun home address hmem => ?_
    cases List.mem_singleton.mp hmem
    refine .object (by decide) fun key city hmem => ?_
    cases List.mem_singleton.mp hmem
    exact .string "Bern"

/-- The city of an address is found below the name of its entry. -/
theorem Record.resolve?_toItem_contact : ∃ item stored found,
    contact.toItem contactTable = .ok item ∧
    Codec.encode contactTable .plain found (.string "Bern") = .ok stored ∧
    Item.resolve? item ["h", "work", "c"] = some stored := by
  obtain ⟨steps, found, hleads, -, -, hread⟩ := @Record.resolve?_toItem contactTable
    contactDescription contact _ "homes.work.city" "homes" ["work", "city"] ["h", "work", "c"] _ rfl
    wellFormed_contact.namesDistinct rfl rfl (by decide) rfl
  have hplain : ∀ step ∈ steps, step.IsPlain := hleads.isPlain (by
    simp [contactTable, contactType, addressType, PathStep.IsPlain])
  obtain ⟨stored, hstored, hfound⟩ := bind_eq_ok_iff.mp (hread hplain)
  exact ⟨_, stored, found, rfl, hstored, (Except.ok.inj hfound).symm⟩

end RecordStore
