import RecordStore.Proofs.Client.Agreement
import RecordStore.Proofs.Codec.Located
import RecordStore.Proofs.Migration.Decode
import RecordStore.Proofs.Restriction

/-!
# Reading a part of a record

The paths that a builder collects are rendered to a projection, and what the projection shows of an
item is the item restricted to them. A get with a projection reads that part as a record, which agrees
with the whole one in every field that was asked for, in its key and in its revision.
-/

namespace RecordStore

open Expression (Builder Building Bindings Compiled IsStem parsePaths projectItem)

variable {table : TableSchema} {item : Item}

/-! ### Building projections -/

theorem exists_run_forM {σ α : Type} {step : α → ExceptT Error (StateM σ) Unit} {items : List α}
    (hstep : ∀ item ∈ items, ∀ state, ∃ later, (step item).run.run state = (.ok (), later))
    (state : σ) : ∃ later, (items.forM step).run.run state = (.ok (), later) := by
  induction items generalizing state with
  | nil => exact ⟨state, rfl⟩
  | cons item rest ih =>
    obtain ⟨between, hfirst⟩ := hstep item List.mem_cons_self state
    obtain ⟨later, hrest⟩ := ih (fun other hmem => hstep other (.tail _ hmem)) between
    exact ⟨later, (run_bind_of_ok hfirst).trans hrest⟩

namespace Expression

/-- Collecting a path always succeeds. -/
theorem Builder.exists_run_project (path : List String) (builder : Builder) :
    ∃ later, (Builder.project path).run.run builder = (.ok (), later) := ⟨_, rfl⟩

theorem Builder.adds_projectAll {paths : List (List String)} (hpaths : ∀ path ∈ paths, path ≠ []) :
    Building.Adds (paths.forM Builder.project) fun _ clauses =>
      clauses = { Clauses.none with projection := paths } := by
  induction paths with
  | nil => exact .pure rfl
  | cons path rest ih =>
    obtain ⟨hpath, hrest⟩ := List.forall_mem_cons.mp hpaths
    refine .bind (Builder.adds_project hpath) fun _ added hadded => (ih hrest).mono ?_
    rintro _ others rfl
    rw [hadded]
    rfl

section Names

variable {bindings others : Bindings} (hnames : bindings.names = others.names)
include hnames

theorem segment_congr (token : Option Token) : segment bindings token = segment others token := by
  unfold segment
  rw [hnames]

/-- Reading a path looks up names only. -/
theorem path_congr (tokens : List Token) : path bindings tokens = path others tokens := by
  induction tokens using path.induct with
  | case1 token rest ih => simp only [path, segment_congr hnames, ih]
  | case2 token rest hrest =>
    rw [path, path, segment_congr hnames]
    · exact hrest
    · exact hrest
  | case3 => rw [path, path, segment_congr hnames]

theorem projectItem_congr (item : Item) (projection : Option String) :
    projectItem item projection bindings = projectItem item projection others := by
  cases projection with
  | none => rfl
  | some text =>
    simp only [projectItem, parsePaths, show path bindings = path others from
      funext (path_congr hnames)]

end Names

end Expression

/-! ### Requests -/

namespace TableSchema

theorem exists_run_project {names : List String}
    (hnames : ∀ name ∈ names, ∃ path, table.resolvePath name = .ok path) (builder : Builder) :
    ∃ later, (table.project names).run.run builder = (.ok (), later) := by
  unfold project
  cases names with
  | nil => exact ⟨builder, rfl⟩
  | cons first rest =>
    obtain ⟨between, hpaths⟩ := @exists_run_forM Builder String (fun name => do
        Builder.project (← (table.resolvePath name : Except Error (List String)))) (first :: rest)
      (fun name hmem state => by
        obtain ⟨path, hpath⟩ := hnames name hmem
        obtain ⟨later, hrun⟩ := Builder.exists_run_project path state
        have hresolved := (run_except (table.resolvePath name) state).trans
          (congrArg (·, state) hpath)
        exact ⟨later, (run_bind_of_ok hresolved).trans hrun⟩) builder
    obtain ⟨later, hneeded⟩ := @exists_run_forM Builder String (fun name => Builder.project [name])
      table.companions (fun name _ => Builder.exists_run_project [name]) between
    exact ⟨later, (run_bind_of_ok hpaths).trans hneeded⟩

/-- A path of one segment, which names a field, leads to the attribute of the field. -/
theorem resolvePath_eq_of_field {field : FieldSchema} {name : String} {path : List String}
    (haccepted : table.Accepted) (hfield : field ∈ table.root.fields)
    (hsegments : Path.segments [] name.toList = [field.name])
    (hresolve : table.resolvePath name = .ok path) : path = [field.wireName] := by
  have hdeclared := (TypeSchema.field?_eq_some_iff haccepted.root_distinct.names).mpr ⟨hfield, rfl⟩
  rw [resolvePath, hsegments] at hresolve
  obtain ⟨steps, found, hleads, hnames, rfl⟩ := exists_leads (.fields haccepted.root_eq)
    (fun _ segment declared hhead hscope => by
      cases hhead
      cases hscope
      exact ⟨field, hdeclared⟩) hresolve
  cases hleads with
  | here => cases hnames
  | cons hstep hrest =>
    obtain ⟨hname, hnil⟩ := List.cons.inj hnames
    rw [List.map_eq_nil_iff.mp hnil]
    cases hstep with
    | field htype hheld =>
      cases haccepted.root_eq.symm.trans htype
      change FieldSchema.name _ = field.name at hname
      rw [hname, hdeclared] at hheld
      cases hheld
      rfl

end TableSchema

/-- A get on paths that can be resolved asks for the key, and shows the paths with what it takes to
read them. -/
theorem RecordGet.exists_projected {name : String} {key : RecordKey} {whole : Item}
    {names : List String} (hkey : table.keys.toItem key = .ok whole)
    (hnames : ∀ name ∈ names, ∃ path, table.resolvePath name = .ok path) :
    ∃ request paths, (RecordGet.mk name key names).request table = .ok request ∧
      request.table = table.name ∧ request.key = some whole ∧ table.Shows names paths ∧
      ∀ item, projectItem item request.projection ⟨request.names.getD [], []⟩ =
        .ok (Item.shown paths item) := by
  obtain ⟨builder, hbuilt⟩ := TableSchema.exists_run_project hnames (Builder.empty "")
  have hrun : Builder.run "" (table.project names) = .ok ((), builder) := by
    rw [Builder.run, hbuilt]
  obtain ⟨clauses, ⟨paths, hpaths, rfl⟩, hreads⟩ := (TableSchema.adds_project table names).run_ok hrun
  obtain ⟨shown, hsame, hproject⟩ := hreads.projectItem
  refine ⟨⟨table.name, some whole, builder.compile.projection, builder.compile.names, true⟩, shown,
    ?_, rfl, rfl, hpaths.congr hsame, fun item => ?_⟩
  · rw [RecordGet.request, hkey, ok_bind, hrun]
    rfl
  · exact (@Expression.projectItem_congr ⟨_, []⟩ builder.compile.bindings rfl item _).trans
      (hproject item)

/-! ### Records of a part -/

theorem Codec.revision_readMembers {held : List (String × (FieldSchema → Except Error Value))}
    {declared : List FieldSchema} {start record : Record}
    (hread : readMembers held start declared = .ok record) : record.revision = start.revision := by
  induction declared generalizing start with
  | nil =>
    cases hread
    rfl
  | cons field rest ih =>
    rw [readMembers_cons] at hread
    obtain ⟨value, _, hread⟩ := bind_eq_ok_iff.mp hread
    exact (ih hread).trans rfl

namespace Record

variable {part : Item} {shown whole : Record}

theorem ofItem_ok {record : Record} (hread : Record.ofItem table item = .ok record) :
    ∃ object, Codec.decodeObject table table.root item = .ok object ∧
      record.fields = object.fields ∧
      if table.optimisticLocking then Codec.storedRevision table item = .ok record.revision
      else record.revision = 0 := by
  obtain ⟨object, hobject, hdone⟩ := bind_eq_ok_iff.mp hread
  refine ⟨object, hobject, ?_⟩
  split at hdone
  · rename_i hlocking
    obtain ⟨revision, hrevision, hdone⟩ := bind_eq_ok_iff.mp hdone
    cases hdone
    exact ⟨rfl, by rw [if_pos hlocking]; exact hrevision⟩
  · rename_i hlocking
    cases hdone
    exact ⟨rfl, by rw [if_neg hlocking]; exact Codec.revision_readMembers hobject⟩

/-- A field reads the same in two items with the same attribute of it. -/
theorem get?_eq_of_get?_eq {field : FieldSchema} (haccepted : table.Accepted)
    (hshown : Record.ofItem table part = .ok shown) (hwhole : Record.ofItem table item = .ok whole)
    (hmem : field ∈ table.root.fields)
    (hsame : Item.get? part field.wireName = Item.get? item field.wireName) :
    shown.get? field.name = whole.get? field.name := by
  obtain ⟨left, hleft, hleftFields, _⟩ := ofItem_ok hshown
  obtain ⟨right, hright, hrightFields, _⟩ := ofItem_ok hwhole
  obtain ⟨value, hvalue, hget⟩ := Codec.get?_readMembers hleft haccepted.root_distinct.names hmem
  obtain ⟨other, hother, hgetOther⟩ :=
    Codec.get?_readMembers hright haccepted.root_distinct.names hmem
  rw [Codec.readMember, Codec.find?_decodeFields, hsame] at hvalue
  rw [Codec.readMember, Codec.find?_decodeFields, hvalue] at hother
  cases hother
  rw [Record.get?, hleftFields, Record.get?, hrightFields]
  exact hget.trans hgetOther.symm

/-- The revision reads the same in two items with the same attribute of it. -/
theorem revision_eq_of_get?_eq (hshown : Record.ofItem table part = .ok shown)
    (hwhole : Record.ofItem table item = .ok whole)
    (hsame : table.optimisticLocking = true →
      Item.get? part table.revisionAttribute = Item.get? item table.revisionAttribute) :
    shown.revision = whole.revision := by
  obtain ⟨_, _, _, hleft⟩ := ofItem_ok hshown
  obtain ⟨_, _, _, hright⟩ := ofItem_ok hwhole
  by_cases hlocking : table.optimisticLocking
  · rw [if_pos hlocking, Codec.storedRevision] at hleft hright
    rw [hsame hlocking, hright] at hleft
    exact (Except.ok.inj hleft).symm
  · rw [if_neg hlocking] at hleft hright
    rw [hleft, hright]

end Record

/-! ### Reading what is projected -/

/-- A store binds an item to a key of a table of the client. -/
structure Client.Binds (client : Client) (session : Session) (table : TableSchema) (key : RecordKey)
    (item : Item) : Prop where
  known : client.table table.name = .ok table
  bound : ∃ stored whole, session.store.table? table.name = some stored ∧
    stored.keys = .ofSchema table.keys ∧ table.keys.toItem key = .ok whole ∧
    stored.contents whole = some item

/-- A field that one of the names is the name of, or a field of the key. -/
def TableSchema.ReadsWhole (table : TableSchema) (names : List String) (field : FieldSchema) : Prop :=
  (∃ name ∈ names, Path.segments [] name.toList = [field.name]) ∨
    field.name = table.keys.hash.field ∨
    ∃ range, table.keys.range = some range ∧ field.name = range.field

/-- A get answers the record that is read of what is shown of the item. -/
theorem Client.Binds.run_get {client : Client} {session : Session} {key : RecordKey}
    {names : List String} (hbinds : client.Binds session table key item)
    (hnames : ∀ name ∈ names, ∃ path, table.resolvePath name = .ok path) :
    ∃ paths, table.Shows names paths ∧ ∀ record, table.Current (Item.shown paths item) →
      Record.ofItem table (Item.shown paths item) = .ok record →
      ∃ later, (client.get ⟨table.name, key, names⟩).run.run session = (.ok (some record), later) := by
  obtain ⟨hknown, stored, whole, hheld, hkeys, hwhole, hbound⟩ := hbinds
  obtain ⟨request, paths, hrequest, hname, hkey, hshows, hproject⟩ :=
    @RecordGet.exists_projected table table.name key whole names hwhole hnames
  refine ⟨paths, hshows, fun record hcurrent hrecord => ?_⟩
  have hshown : ((stored.contents whole).mapM fun item =>
      projectItem item request.projection ⟨request.names.getD [], []⟩) =
      .ok (some (Item.shown paths item)) := by
    rw [hbound, Option.mapM_some, hproject]
    rfl
  obtain ⟨later, hget⟩ := Client.run_get_request hknown hheld hrequest hname hkey
    (hkeys ▸ KeySchema.keyOf?_toItem hwhole) hshown
  refine ⟨later, hget.trans ?_⟩
  rw [Option.mapM_some, run_map, Client.run_load hcurrent hrecord]
  rfl

theorem TableSchema.Shows.mem_companion {names : List String} {paths : List (List String)}
    {name : String} (hshows : table.Shows names paths) (hpaths : paths ≠ [])
    (hcompanion : name ∈ table.companions) : [name] ∈ paths := by
  cases hshows with
  | whole => exact absurd rfl hpaths
  | some _ hall => exact (hall [name]).mpr (.inr ⟨name, hcompanion, rfl⟩)

/-- What is shown at a path of a projection is what the item holds there. -/
theorem Item.get?_shown {paths : List (List String)} {name : String} (hitem : item.Ordered)
    (hname : paths ≠ [] → [name] ∈ paths) :
    Item.get? (Item.shown paths item) name = Item.get? item name := by
  by_cases hpaths : paths = []
  · subst hpaths
    rfl
  · rw [Item.shown, if_neg (by simpa using hpaths)]
    exact (Item.isRestriction_restrict hitem paths).1.resolve?_of_mem (hname hpaths)

/-- The attribute of a field that is read whole is one of the paths that are shown. -/
theorem TableSchema.Shows.mem_field {names : List String} {paths : List (List String)}
    {field : FieldSchema} (haccepted : table.Accepted) (hshows : table.Shows names paths)
    (hnames : ∀ name ∈ names, ∃ path, table.resolvePath name = .ok path)
    (hmem : field ∈ table.root.fields) (hwhole : table.ReadsWhole names field)
    (hpaths : paths ≠ []) : [field.wireName] ∈ paths := by
  have hkey : ∀ key : KeyField, key.Declared table.root → field.name = key.field →
      field.wireName = key.wireName := by
    rintro key ⟨other, hother, hwire, _⟩ hname
    have hdeclared := (TypeSchema.field?_eq_some_iff haccepted.root_distinct.names).mpr ⟨hmem, rfl⟩
    rw [hname, hother] at hdeclared
    cases hdeclared
    exact hwire
  rcases hwhole with ⟨name, hname, hsegments⟩ | hhash | ⟨range, hrange, hname⟩
  · obtain ⟨path, hresolve⟩ := hnames name hname
    have hpath := TableSchema.resolvePath_eq_of_field haccepted hmem hsegments hresolve
    cases hshows with
    | whole => exact absurd rfl hpaths
    | some _ hall => exact (hall _).mpr (.inl ⟨name, hname, hpath ▸ hresolve⟩)
  · rw [hkey _ haccepted.hash hhash]
    exact hshows.mem_companion hpaths (by simp [companions])
  · rw [hkey range (haccepted.range range hrange) hname]
    exact hshows.mem_companion hpaths (by simp [companions, hrange])

/-- What a projection shows of an item at the version of its table can be read. -/
theorem TableSchema.Current.shown {names : List String} {paths : List (List String)}
    (hcurrent : table.Current item) (hshows : table.Shows names paths) :
    table.Current (Item.shown paths item) := by
  by_cases hpaths : paths = []
  · subst hpaths
    exact hcurrent
  · rw [Item.shown, if_neg (by simpa using hpaths)]
    refine hcurrent.restrict (hshows.mem_companion hpaths ?_) fun hlocking =>
      hshows.mem_companion hpaths ?_
    · simp [companions]
    · simp [companions, hlocking]

/-- A projection keeps of an item what its paths lead to, and nothing else, in whatever order they
are collected and however often. So a get of an item that can be read, at the version of its table,
answers the same with and without a projection: in the revision, in the fields of the key and in the
fields that are projected. -/
theorem projection_restricts (hitem : item.Ordered) :
    (∀ paths : List (List String), paths ≠ [] → (∀ path ∈ paths, path ≠ []) →
      ∃ projected, item.IsRestriction paths projected ∧
        ∀ (stem : String) (others : List (List String)), IsStem stem →
          (∀ path, path ∈ others ↔ path ∈ paths) →
          ∃ builder, Builder.run stem (others.forM Builder.project) = .ok ((), builder) ∧
            projectItem item builder.compile.projection builder.compile.bindings =
              .ok projected) ∧
    ∀ (description : SchemaDescription) (registrations : List (String × Migration))
      (client : Client) (session : Session) (table : TableSchema) (key : RecordKey)
      (names : List String),
      Registry.build description registrations = .ok client.registry →
      client.Binds session table key item → table.Current item →
      (∀ name ∈ names, ∃ path, table.resolvePath name = .ok path) →
      ∃ whole shown,
        (∃ later, (client.get ⟨table.name, key, []⟩).run.run session = (.ok (some whole), later)) ∧
        (∃ later, (client.get ⟨table.name, key, names⟩).run.run session =
          (.ok (some shown), later)) ∧
        shown.revision = whole.revision ∧
        ∀ field ∈ table.root.fields, table.ReadsWhole names field →
          shown.get? field.name = whole.get? field.name := by
  constructor
  · intro paths hne hpaths
    refine ⟨item.restrict paths, (Item.isRestriction_restrict hitem paths).1,
      fun stem others hstem hsame => ?_⟩
    have hothers : ∀ path ∈ others, path ≠ [] := fun path hmem => hpaths path ((hsame path).mp hmem)
    obtain ⟨builder, hrun⟩ := exists_run_forM
      (fun path (_ : path ∈ others) => Builder.exists_run_project path) (Builder.empty stem)
    have hbuilt : Builder.run stem (others.forM Builder.project) = .ok ((), builder) := by
      rw [Builder.run, hrun]
    obtain ⟨clauses, rfl, hreads⟩ := (Builder.adds_projectAll hothers).run_stem hstem hbuilt
    obtain ⟨shown, hshown, hproject⟩ := hreads.projectItem
    have hboth : ∀ path, path ∈ shown ↔ path ∈ paths := fun path => (hshown path).trans (hsame path)
    have hshownNe : shown ≠ [] := by
      obtain ⟨path, hpath⟩ := List.exists_mem_of_ne_nil _ hne
      exact List.ne_nil_of_mem ((hboth path).mpr hpath)
    refine ⟨builder, hbuilt, ?_⟩
    rw [hproject, Item.shown, if_neg (by simpa using hshownNe), Item.restrict_congr hitem hboth]
  · intro description registrations client session table key names hbuild hbinds hcurrent hnames
    have haccepted := Registry.accepted_of_build hbuild hbinds.known
    have hnone : ∀ name ∈ ([] : List String), ∃ path, table.resolvePath name = .ok path :=
      fun _ hmem => absurd hmem List.not_mem_nil
    obtain ⟨_, hwhole, hgetWhole⟩ := hbinds.run_get hnone
    obtain ⟨paths, hshows, hgetShown⟩ := hbinds.run_get hnames
    cases hwhole with
    | some hnone => exact absurd rfl hnone
    | whole =>
      have hshown := hcurrent.shown hshows
      obtain ⟨whole, hreadWhole⟩ := hcurrent.reads
      obtain ⟨shown, hreadShown⟩ := hshown.reads
      refine ⟨whole, shown, hgetWhole whole hcurrent hreadWhole, hgetShown shown hshown hreadShown,
        Record.revision_eq_of_get?_eq hreadShown hreadWhole fun hlocking => ?_,
        fun field hmem hfield => ?_⟩
      · exact Item.get?_shown hitem fun hpaths => hshows.mem_companion hpaths (by
          simp [TableSchema.companions, hlocking])
      · exact Record.get?_eq_of_get?_eq haccepted hreadShown hreadWhole hmem
          (Item.get?_shown hitem (hshows.mem_field haccepted hnames hmem hfield))

/-! ### A contact in parts -/

/-- The contact as it is stored. -/
def contactItem : Item :=
  [("_rev", .number "2"), ("_v", .number "1"),
    ("h", .map [("work", .map [("c", .string "Bern")])]), ("i", .string "1")]

def contactClient : Client :=
  ⟨⟨[contactTable], []⟩, default⟩

/-- A session with a store that holds the contact only. -/
def contactSession : Session :=
  .start ⟨[("contacts", ⟨.ofSchema contactTable.keys, [], [contactItem], 1⟩)], [], 0⟩

def contactKey : RecordKey :=
  ⟨.string "1", none⟩

theorem ordered_contactItem : contactItem.Ordered := by
  have haddress : Item.Ordered [("c", .string "Bern")] :=
    .intro (List.pairwise_singleton _ _) fun name entries hget => by
      simpa using Entries.mem_of_find? hget
  have hhomes : Item.Ordered [("work", .map [("c", .string "Bern")])] :=
    .intro (List.pairwise_singleton _ _) fun name entries hget => by
      obtain ⟨rfl, rfl⟩ : name = "work" ∧ entries = [("c", .string "Bern")] := by
        simpa using Entries.mem_of_find? hget
      exact haddress
  refine .intro ?_ fun name entries hget => ?_
  · unfold Entries.Ascending
    decide
  · obtain ⟨rfl, rfl⟩ : name = "h" ∧ entries = [("work", .map [("c", .string "Bern")])] := by
      simpa [contactItem] using Entries.mem_of_find? hget
    exact hhomes

theorem binds_contact : contactClient.Binds contactSession contactTable contactKey contactItem :=
  ⟨rfl, ⟨.ofSchema contactTable.keys, [], [contactItem], 1⟩, [("i", .string "1")], rfl, rfl, rfl, rfl⟩

/-- An address is asked for beside a city inside it; then the city alone, as a get names it. -/
theorem projection_restricts_contact :
    (∃ projected builder, contactItem.IsRestriction [["h", "work", "c"], ["h", "work"]] projected ∧
      Builder.run "" ([["h", "work"], ["h", "work", "c"], ["h", "work"]].forM Builder.project) =
        .ok ((), builder) ∧
      projectItem contactItem builder.compile.projection builder.compile.bindings = .ok projected) ∧
    ∃ whole shown,
      (∃ later, (contactClient.get ⟨"contacts", contactKey, []⟩).run.run contactSession =
        (.ok (some whole), later)) ∧
      (∃ later, (contactClient.get ⟨"contacts", contactKey, ["homes.work.city"]⟩).run.run
        contactSession = (.ok (some shown), later)) ∧
      shown.revision = whole.revision ∧ shown.get? "id" = whole.get? "id" := by
  obtain ⟨hprojects, hgets⟩ := @projection_restricts contactItem ordered_contactItem
  constructor
  · obtain ⟨projected, hrestriction, hreads⟩ :=
      hprojects [["h", "work", "c"], ["h", "work"]] (by decide) (by decide)
    obtain ⟨builder, hrun, hproject⟩ := hreads ""
      [["h", "work"], ["h", "work", "c"], ["h", "work"]] Expression.isStem_empty (by
        intro path
        simp
        tauto)
    exact ⟨projected, builder, hrestriction, hrun, hproject⟩
  · have hcurrent : contactTable.Current contactItem := ⟨⟨_, rfl, rfl⟩, ⟨_, rfl⟩⟩
    obtain ⟨whole, shown, hwhole, hshown, hrevision, hfields⟩ := hgets ⟨[contactDescription]⟩ []
      contactClient contactSession contactTable contactKey ["homes.work.city"] rfl binds_contact
      hcurrent fun name hname => ⟨["h", "work", "c"], by rw [List.mem_singleton.mp hname]; rfl⟩
    exact ⟨whole, shown, hwhole, hshown, hrevision,
      hfields _ (List.mem_cons_self) (.inr (.inl rfl))⟩

end RecordStore
