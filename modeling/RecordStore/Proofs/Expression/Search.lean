import RecordStore.Client.Read
import RecordStore.Proofs.Expression.Builder

/-!
# What searches say

A search is compiled to the conditions on its key, a filter and a projection. The store reads them as
the tests that were asked for and as the paths that were to be read.
-/

namespace RecordStore

namespace Expression

/-! ### Reading lists of paths -/

section Paths

variable {bindings : Bindings}

/-- A text is read as one path only. -/
theorem IsPath.unique {text : String} {first second : List String}
    (hfirst : IsPath bindings text first) (hsecond : IsPath bindings text second) :
    first = second := by
  obtain ⟨tokens, hlexes, hpath⟩ := hfirst
  obtain ⟨others, hothers, hother⟩ := hsecond
  have hsame : tokens = others := by
    have hboth := hlexes.symm.trans hothers
    exact Except.ok.inj hboth
  have hend : EndsPath [] := by simp [EndsPath]
  have hread := hpath.read hend
  rw [hsame, hother.read hend] at hread
  cases hread
  rfl

theorem separated_paths {pieces : List (List Token)} {paths : List (List String)}
    (hpieces : List.Forall₂ (PathTokens bindings) pieces paths) (hne : pieces ≠ []) {limit : Nat}
    (hlimit : ([.comma].intercalate pieces).length ≤ limit) :
    Parsing.separated (path bindings) limit ([.comma].intercalate pieces) = .ok (paths, []) := by
  induction hpieces generalizing limit with
  | nil => exact absurd rfl hne
  | @cons piece segments pieces paths hpiece hrest ih =>
    cases hrest with
    | nil =>
      have hread := hpiece.read (show EndsPath [] by simp [EndsPath])
      rw [List.append_nil] at hread
      rw [List.intercalate_singleton]
      cases limit with
      | zero =>
        unfold Parsing.separated
        rw [bind_read hread]
        rfl
      | succ limit =>
        have hend : Parsing.take .comma [] = .ok (false, []) := rfl
        unfold Parsing.separated
        rw [bind_read hread, bind_read hend]
        rfl
    | @cons next other pieces paths hnext hafter =>
      rw [List.intercalate_cons_cons, List.append_assoc, List.singleton_append] at hlimit ⊢
      rw [List.length_append, List.length_cons] at hlimit
      cases limit with
      | zero => omega
      | succ limit =>
        have hread := hpiece.read (endsPath_cons .comma ([.comma].intercalate (next :: pieces))
          (by decide))
        have hcomma : Parsing.take .comma (.comma :: [.comma].intercalate (next :: pieces)) =
            .ok (true, [.comma].intercalate (next :: pieces)) := rfl
        unfold Parsing.separated
        rw [bind_read hread, bind_read hcomma, if_pos rfl,
          bind_read (ih (List.cons_ne_nil _ _) (by omega))]
        rfl

theorem parsePaths_intercalate {texts : List String} {paths : List (List String)}
    (htexts : List.Forall₂ (IsPath bindings) texts paths) (hne : texts ≠ []) :
    parsePaths bindings (", ".intercalate texts) = .ok paths := by
  obtain ⟨pieces, hpieces, hpaths⟩ : ∃ pieces, List.Forall₂ Lexes texts pieces ∧
      List.Forall₂ (PathTokens bindings) pieces paths := by
    clear hne
    induction htexts with
    | nil => exact ⟨[], .nil, .nil⟩
    | cons htext _ ih =>
      obtain ⟨tokens, hlexes, hpath⟩ := htext
      obtain ⟨pieces, hpieces, hpaths⟩ := ih
      exact ⟨tokens :: pieces, .cons hlexes hpieces, .cons hpath hpaths⟩
  have hcomma : Lexes ", " [.comma] := by cbv
  have hlexes := lexes_intercalate hpieces hcomma (by decide) (by decide)
  have htokens : tokensOf (", ".intercalate texts) = .ok ([.comma].intercalate pieces) := by
    unfold Lexes at hlexes
    simp only [tokensOf, hlexes]
  have hnonempty : pieces ≠ [] := by
    rintro rfl
    cases hpieces
    exact hne rfl
  have hread : (Parsing.separated (path bindings) ([.comma].intercalate pieces).length).run
      ([.comma].intercalate pieces) = .ok (paths, []) :=
    separated_paths hpaths hnonempty (Nat.le_refl _)
  unfold parsePaths
  rw [htokens, ok_bind, hread]
  rfl

end Paths

namespace Builder

variable {builder : Builder} {clauses : Clauses}

/-- The condition on the key of a compiled request is read as the conjunction of those collected. -/
theorem Reads.keyCondition (hreads : builder.Reads clauses) (hne : clauses.keyConditions ≠ []) :
    ∃ text predicate, builder.compile.keyCondition = some text ∧
      Predicate.parse builder.compile.bindings text = .ok predicate ∧
      ∀ item, predicate.holds item = .ok (clauses.selects item) := by
  have hconditions := hreads.textsRead.keyConditions
  have htexts : builder.keyConditions ≠ [] := (eq_nil_iff_of_forall₂ hconditions).not.mpr hne
  obtain ⟨tokens, predicate, hlexes, hderived, hholds⟩ := expresses_all hconditions htexts
  refine ⟨" AND ".intercalate builder.keyConditions, predicate, ?_,
    (ConditionTokens.conjunction hderived).parse hlexes, hholds⟩
  change joined " AND " builder.keyConditions = _
  rw [joined, if_neg (by simpa using htexts)]

theorem Reads.projection_eq_none (hreads : builder.Reads clauses)
    (hnone : clauses.projection = []) : builder.compile.projection = none := by
  have htexts : builder.projection = [] := by
    refine List.eq_nil_iff_forall_not_mem.mpr fun text hmem => ?_
    obtain ⟨path, hpath, _⟩ := hreads.textsRead.projection.sound text hmem
    rw [hnone] at hpath
    exact List.not_mem_nil hpath
  change joined ", " builder.projection = none
  rw [htexts]
  rfl

/-- The projection of a compiled request is read as the paths collected. -/
theorem Reads.projection (hreads : builder.Reads clauses) (hne : clauses.projection ≠ []) :
    ∃ text paths, builder.compile.projection = some text ∧
      parsePaths builder.compile.bindings text = .ok paths ∧
      ∀ path, path ∈ paths ↔ path ∈ clauses.projection := by
  have hread := hreads.textsRead.projection
  have hpaths : ∀ texts : List String, (∀ text ∈ texts, text ∈ builder.projection) →
      ∃ paths, List.Forall₂ (IsPath builder.compile.bindings) texts paths ∧
        ∀ path ∈ paths, path ∈ clauses.projection := by
    intro texts htexts
    induction texts with
    | nil => exact ⟨[], .nil, by simp⟩
    | cons text rest ih =>
      obtain ⟨path, hpath, htext⟩ := hread.sound text (htexts text List.mem_cons_self)
      obtain ⟨paths, hrest, hall⟩ := ih fun other hmem => htexts other (List.mem_cons_of_mem _ hmem)
      refine ⟨path :: paths, .cons htext hrest, ?_⟩
      intro other hmem
      rcases List.mem_cons.mp hmem with rfl | hmem
      · exact hpath
      · exact hall other hmem
  obtain ⟨paths, htexts, hsound⟩ := hpaths builder.projection fun _ => id
  have htextsNe : builder.projection ≠ [] := by
    obtain ⟨path, hpath⟩ := List.exists_mem_of_ne_nil _ hne
    obtain ⟨text, htext, _⟩ := hread.complete path hpath
    exact List.ne_nil_of_mem htext
  refine ⟨", ".intercalate builder.projection, paths, ?_, parsePaths_intercalate htexts htextsNe,
    fun path => ⟨hsound path, fun hpath => ?_⟩⟩
  · change joined ", " builder.projection = _
    rw [joined, if_neg (by simpa using htextsNe)]
  · obtain ⟨text, htext, hreadsPath⟩ := hread.complete path hpath
    obtain ⟨other, hother, hreadsOther⟩ := exists_mem_of_forall₂ htexts.flip text htext
    rw [hreadsPath.unique hreadsOther]
    exact hother

end Builder

/-! ### Steps of building searches -/

namespace Builder

theorem withAliases_bind {α β : Type} (first : Rendering α) (next : α → Rendering β) :
    (withAliases first >>= fun value => withAliases (next value)) =
      withAliases (first >>= next) := by
  funext builder
  change (withAliases first >>= fun value => withAliases (next value)).run.run builder =
    (withAliases (first >>= next)).run.run builder
  have hwith : ∀ {γ : Type} (rendering : Rendering γ) (builder : Builder),
      (withAliases rendering).run.run builder = ((rendering.run.run builder.aliases).1,
        { builder with aliases := (rendering.run.run builder.aliases).2 }) := fun _ _ => rfl
  rw [hwith, ExceptT.run_bind, StateT.run_bind, ExceptT.run_bind, StateT.run_bind, hwith]
  rcases first.run.run builder.aliases with ⟨_ | value, aliases⟩
  · rfl
  · exact hwith (next value) { builder with aliases }

theorem adds_keyCondition {rendering : Rendering String} {meaning : Item → Bool}
    (hrender : rendering.Ensures fun bindings text =>
      Expresses bindings .conjunction text meaning) :
    Building.Adds (withAliases rendering >>= fun text =>
        modify fun builder => { builder with keyConditions := builder.keyConditions ++ [text] })
      fun _ clauses => clauses = .ofKeyCondition meaning := by
  refine .render hrender (fun _ _ => rfl) ?_
  intro bindings text builder clauses htext hread
  refine ⟨?_, ?_, ?_, ?_, ?_, List.rel_append hread.keyConditions (.cons htext .nil), ?_⟩ <;>
    simp [Clauses.ofKeyCondition, Clauses.none, hread.set, hread.remove, hread.add, hread.delete,
      hread.conditions, hread.projection]

theorem adds_project {path : List String} (hpath : path ≠ []) :
    Building.Adds (project path) fun _ clauses => clauses = .ofPath path := by
  refine .render (ensures_path hpath) (fun _ _ => rfl) ?_
  intro bindings text builder clauses htext hread
  have hone : PathsRead bindings [text] [path] := by
    constructor <;> simp [htext]
  refine ⟨?_, ?_, ?_, ?_, ?_, ?_, hread.projection.union hone⟩ <;>
    simp [Clauses.ofPath, Clauses.none, hread.set, hread.remove, hread.add, hread.delete,
      hread.conditions, hread.keyConditions]

/-- A test of a key attribute, which says of an item what the test does. -/
theorem adds_requireKey {path : List String} (hpath : path ≠ []) (test : Test) :
    Building.Adds (requireKey path test) fun _ clauses =>
      test.isKeyTest = true ∧
        clauses = .ofKeyCondition fun item => test.holds (Item.resolve? item path) := by
  have hrender : Rendering.Ensures (Aliases.path path >>= fun place => test.render place)
      fun bindings text => Expresses bindings .conjunction text fun item =>
        test.holds (Item.resolve? item path) := by
    refine .bind (ensures_path hpath) fun place => (Test.ensures_render test place path).mono ?_
    intro bindings text htext hplace
    exact (htext hplace).conjunction
  unfold requireKey
  cases hkey : test.isKeyTest with
  | false => exact .throw _
  | true =>
    have hshape : (do
        let place ← placeholders path
        let clause ← withAliases (test.render place)
        modify fun builder : Builder =>
          { builder with keyConditions := builder.keyConditions ++ [clause] }) =
        withAliases (Aliases.path path >>= fun place => test.render place) >>= fun clause =>
          modify fun builder : Builder =>
            { builder with keyConditions := builder.keyConditions ++ [clause] } := by
      rw [← withAliases_bind, bind_assoc]
      rfl
    refine Building.Adds.mono ?_ fun _ _ hclauses => ⟨rfl, hclauses⟩
    change Building.Adds (do
      let place ← placeholders path
      let clause ← withAliases (test.render place)
      modify fun builder : Builder =>
        { builder with keyConditions := builder.keyConditions ++ [clause] }) _
    rw [hshape]
    exact adds_keyCondition hrender

end Builder

end Expression

/-! ### Searches -/

open Expression (Builder Building Clauses Predicate Bindings parsePaths)

theorem adds_projectNames (names : List String) :
    Building.Adds (names.forM fun name => Builder.project [name]) fun _ clauses =>
      clauses = { Clauses.none with projection := names.map ([·]) } := by
  induction names with
  | nil => exact .pure rfl
  | cons name rest ih =>
    refine .bind (Builder.adds_project (List.cons_ne_nil _ _)) fun _ added hadded => ?_
    refine ih.mono ?_
    rintro _ others rfl
    rw [hadded]
    rfl

theorem adds_resolveAll (table : TableSchema) (names : List String) :
    Building.Adds (names.forM fun name => do
        Builder.project (← (table.resolvePath name : Except Error (List String))))
      fun _ clauses => ∃ paths, List.Forall₂ (fun name path => table.resolvePath name = .ok path)
        names paths ∧ clauses = { Clauses.none with projection := paths } := by
  induction names with
  | nil => exact .pure ⟨[], .nil, rfl⟩
  | cons name rest ih =>
    have hfirst : Building.Adds (do
        Builder.project (← (table.resolvePath name : Except Error (List String))))
        fun _ clauses => ∃ path, table.resolvePath name = .ok path ∧ clauses = .ofPath path :=
      .bind_except fun path hresolve =>
        (Builder.adds_project (Expression.resolvePath_ne_nil hresolve)).mono
          fun _ _ hclauses => ⟨path, hresolve, hclauses⟩
    refine .bind hfirst fun _ added hadded => ih.mono fun _ others hothers => ?_
    obtain ⟨path, hresolve, rfl⟩ := hadded
    obtain ⟨paths, hpaths, rfl⟩ := hothers
    exact ⟨path :: paths, .cons hresolve hpaths, rfl⟩

namespace TableSchema

/-- What is read along with any path, to decode and to resume. -/
def companions (table : TableSchema) : List String :=
  [table.keys.hash.wireName, table.versionAttribute] ++
    table.keys.range.toList.map KeyField.wireName ++
    (if table.optimisticLocking then [table.revisionAttribute] else [])

/-- The paths that a projection on named paths reads, none for the whole item. -/
inductive Shows (table : TableSchema) : (names : List String) → (paths : List (List String)) → Prop
  | whole : Shows table [] []
  | some {names : List String} {paths : List (List String)} (hnames : names ≠ [])
      (hpaths : ∀ path, path ∈ paths ↔ (∃ name ∈ names, table.resolvePath name = .ok path) ∨
        ∃ name ∈ table.companions, [name] = path) :
      Shows table names paths

theorem adds_project (table : TableSchema) (names : List String) :
    Building.Adds (table.project names) fun _ clauses =>
      ∃ paths, table.Shows names paths ∧ clauses = { Clauses.none with projection := paths } := by
  unfold project
  cases names with
  | nil => exact .pure ⟨[], .whole, rfl⟩
  | cons name rest =>
    refine .bind (adds_resolveAll table (name :: rest)) fun _ added hadded => ?_
    obtain ⟨paths, hpaths, rfl⟩ := hadded
    refine (adds_projectNames table.companions).mono ?_
    rintro _ others rfl
    refine ⟨paths ++ table.companions.map ([·]), .some (List.cons_ne_nil _ _) fun path => ?_, rfl⟩
    rw [List.mem_append, List.mem_map]
    refine or_congr_left ⟨fun hmem => exists_mem_of_forall₂ hpaths path hmem, ?_⟩
    · rintro ⟨name, hname, hresolve⟩
      obtain ⟨other, hother, hresolved⟩ := exists_mem_of_forall₂ hpaths.flip name hname
      rw [hresolve] at hresolved
      cases hresolved
      exact hother

theorem Shows.congr {table : TableSchema} {names : List String} {paths others : List (List String)}
    (hshows : table.Shows names paths) (hsame : ∀ path, path ∈ others ↔ path ∈ paths) :
    table.Shows names others := by
  cases hshows with
  | whole =>
    have hnone : others = [] := List.eq_nil_iff_forall_not_mem.mpr fun path => by simp [hsame]
    rw [hnone]
    exact .whole
  | some hnames hpaths => exact .some hnames fun path => (hsame path).trans (hpaths path)

end TableSchema

/-- What a projection on paths shows of an item. -/
def Item.shown (paths : List (List String)) (item : Item) : Item :=
  if paths.isEmpty then item else item.restrict paths

/-- The projection of a compiled request shows the paths collected. -/
theorem Expression.Builder.Reads.projectItem {builder : Builder} {clauses : Clauses}
    (hreads : builder.Reads clauses) :
    ∃ paths, (∀ path, path ∈ paths ↔ path ∈ clauses.projection) ∧
      ∀ item, Expression.projectItem item builder.compile.projection builder.compile.bindings =
        .ok (item.shown paths) := by
  by_cases hnone : clauses.projection = []
  · refine ⟨[], by simp [hnone], fun item => ?_⟩
    rw [hreads.projection_eq_none hnone]
    rfl
  · obtain ⟨text, paths, htext, hparse, hsame⟩ := hreads.projection hnone
    have hpaths : paths ≠ [] := by
      obtain ⟨path, hpath⟩ := List.exists_mem_of_ne_nil _ hnone
      exact List.ne_nil_of_mem ((hsame path).mpr hpath)
    refine ⟨paths, hsame, fun item => ?_⟩
    rw [htext, Expression.projectItem, hparse, Item.shown, if_neg (by simpa using hpaths)]
    rfl

namespace RecordQuery

/-- Whether an item has the key that a query looks for. -/
def selects (query : RecordQuery) (keys : KeySchema) (item : Item) : Bool :=
  (Test.compare .equal query.hash).holds (Item.get? item keys.hash.wireName) &&
    query.range.all fun test =>
      keys.range.all fun range => test.holds (Item.get? item range.wireName)

theorem adds_keyCondition (query : RecordQuery) (table : TableSchema) (keys : KeySchema) :
    Building.Adds (query.keyCondition table keys) fun _ clauses =>
      ∃ tests, clauses = { Clauses.none with keyConditions := tests } ∧ tests ≠ [] ∧
        clauses.selects = query.selects keys := by
  have hone : ∀ (key : KeyField) (test : Test), Building.Adds (Builder.requireKey [key.wireName] test)
      fun _ clauses => clauses = .ofKeyCondition fun item =>
        test.holds (Item.get? item key.wireName) := by
    intro key test
    exact (Builder.adds_requireKey (List.cons_ne_nil _ _) test).mono fun _ _ hclauses => hclauses.2
  unfold keyCondition
  refine .bind (hone keys.hash _) fun _ added hadded => ?_
  subst hadded
  cases hrange : query.range with
  | none =>
    refine .pure ⟨_, rfl, by simp [Clauses.ofKeyCondition, Clauses.none], ?_⟩
    funext item
    simp [Clauses.selects, selects, Clauses.ofKeyCondition, Clauses.none, hrange]
  | some test =>
    cases hkey : keys.range with
    | none => exact .throw _
    | some range =>
      refine (hone range test).mono ?_
      rintro _ others rfl
      refine ⟨_, rfl, by simp [Clauses.ofKeyCondition, Clauses.none], ?_⟩
      funext item
      simp [Clauses.selects, selects, Clauses.ofKeyCondition, Clauses.none, hrange, hkey]

end RecordQuery

namespace RecordSearch

variable {table : TableSchema} {search : RecordSearch}

/-- Whether an item passes the filter of a search. -/
def keeps (search : RecordSearch) (table : TableSchema) (item : Item) : Bool :=
  search.filter.all fun condition => condition.holds table item

/-- The clauses of a filter and of a projection on paths. -/
structure Narrows (search : RecordSearch) (table : TableSchema) (paths : List (List String))
    (clauses : Clauses) : Prop where
  keyConditions : clauses.keyConditions = []
  conditions : clauses.conditions = [] ↔ search.filter = none
  meets : clauses.meets = search.keeps table
  projection : clauses.projection = paths
  paths : table.Shows search.projection paths

theorem adds_filter (search : RecordSearch) (table : TableSchema) :
    Building.Adds (search.filter.forM (Builder.requireCondition table)) fun _ clauses =>
      ∃ conditions, clauses = { Clauses.none with conditions := conditions } ∧
        (conditions = [] ↔ search.filter = none) ∧ clauses.meets = search.keeps table := by
  cases hfilter : search.filter with
  | none =>
    refine .pure ⟨[], rfl, by simp, ?_⟩
    funext item
    simp [Clauses.meets, Clauses.none, keeps, hfilter]
  | some condition =>
    refine (Builder.adds_requireCondition table condition).mono ?_
    rintro _ added rfl
    refine ⟨_, rfl, by simp, ?_⟩
    funext item
    simp [Clauses.meets, Clauses.ofCondition, keeps, hfilter]

theorem adds_narrow (search : RecordSearch) (table : TableSchema) :
    Building.Adds (search.narrow table) fun _ clauses =>
      ∃ paths, search.Narrows table paths clauses := by
  unfold narrow
  refine .bind (adds_filter search table) fun _ added hadded => ?_
  obtain ⟨conditions, rfl, hconditions, hmeets⟩ := hadded
  refine (TableSchema.adds_project table search.projection).mono ?_
  rintro _ others ⟨paths, hpaths, rfl⟩
  refine ⟨paths, rfl, ?_, ?_, rfl, hpaths⟩
  · rw [← hconditions]
    simp [Clauses.none]
  · rw [← hmeets]
    funext item
    simp [Clauses.meets, Clauses.none]

/-- A page request for what a search asks of the items. -/
structure Asks (search : RecordSearch) (table : TableSchema) (paths : List (List String))
    (request : PageRequest) : Prop where
  index : request.index = search.index
  start : request.start = search.start
  limit : request.limit = search.limit
  filter : ∃ filter, request.filter.mapM (Predicate.parse request.bindings) = .ok filter ∧
    ∀ item, (filter.elim (.ok true) fun predicate => predicate.holds item) =
      .ok (search.keeps table item)
  projection : ∀ item, Expression.projectItem item request.projection request.bindings =
    .ok (item.shown paths)
  paths : table.Shows search.projection paths

/-- The page request of a builder that holds the filter and the projection asks for them. -/
theorem asks_read {paths : List (List String)} {builder : Builder} {clauses : Clauses}
    (hreads : builder.Reads clauses) (hconditions : clauses.conditions = [] ↔ search.filter = none)
    (hmeets : clauses.meets = search.keeps table) (hpaths : table.Shows search.projection paths)
    (hprojection : clauses.projection = paths) :
    ∃ shown, search.Asks table shown (search.read table builder.compile).page := by
  have hfilter : ∃ filter, builder.compile.condition.mapM
      (Predicate.parse builder.compile.bindings) = .ok filter ∧
      ∀ item, (filter.elim (.ok true) fun predicate => predicate.holds item) =
        .ok (search.keeps table item) := by
    by_cases hnone : clauses.conditions = []
    · refine ⟨none, by rw [hreads.condition_eq_none hnone]; rfl, fun item => ?_⟩
      rw [keeps, hconditions.mp hnone]
      rfl
    · obtain ⟨text, predicate, htext, hparse, hholds⟩ := hreads.condition hnone
      refine ⟨some predicate, ?_, fun item => ?_⟩
      · rw [htext, Option.mapM_some, hparse]
        rfl
      · rw [← hmeets]
        exact hholds item
  obtain ⟨shown, hsame, hproject⟩ := hreads.projectItem
  rw [hprojection] at hsame
  exact ⟨shown, rfl, rfl, rfl, hfilter, hproject, hpaths.congr hsame⟩

end RecordSearch

/-! ### Requests -/

/-- A query request asks for what the query means. -/
theorem RecordQuery.asks_request {query : RecordQuery} {table : TableSchema} {keys : KeySchema}
    {request : QueryRequest} (hkeys : table.keysOf query.search.index = .ok keys)
    (hrequest : query.request table = .ok request) :
    ∃ paths text predicate, query.search.Asks table paths request.read.page ∧
      request.read.table = table.name ∧ request.forward = query.forward ∧
      request.keyCondition = some text ∧
      Predicate.parse request.read.page.bindings text = .ok predicate ∧
      ∀ item, predicate.holds item = .ok (query.selects keys item) := by
  rw [RecordQuery.request, hkeys, ok_bind] at hrequest
  obtain ⟨⟨⟨⟩, builder⟩, hrun, hreturn⟩ := bind_eq_ok_iff.mp hrequest
  cases hreturn
  have hadds : Building.Adds (do
      query.keyCondition table keys
      query.search.narrow table) fun _ clauses => ∃ paths, clauses.keyConditions ≠ [] ∧
        clauses.selects = query.selects keys ∧
        (clauses.conditions = [] ↔ query.search.filter = none) ∧
        clauses.meets = query.search.keeps table ∧
        table.Shows query.search.projection paths ∧ clauses.projection = paths := by
    refine .bind (query.adds_keyCondition table keys) fun _ added hadded => ?_
    obtain ⟨tests, rfl, htests, hselects⟩ := hadded
    refine (query.search.adds_narrow table).mono ?_
    rintro _ others ⟨paths, hnarrows⟩
    refine ⟨paths, by simp [htests], ?_, by simpa [Clauses.none] using hnarrows.conditions, ?_,
      hnarrows.paths, by simpa [Clauses.none] using hnarrows.projection⟩
    · rw [← hselects]
      funext item
      simp [Clauses.selects, hnarrows.keyConditions]
    · rw [← hnarrows.meets]
      funext item
      simp [Clauses.meets, Clauses.none]
  obtain ⟨clauses, ⟨paths, hne, hselects, hconditions, hmeets, hpaths, hprojection⟩, hreads⟩ :=
    hadds.run_ok hrun
  obtain ⟨shown, hasks⟩ := RecordSearch.asks_read hreads hconditions hmeets hpaths hprojection
  obtain ⟨text, predicate, htext, hparse, hholds⟩ := hreads.keyCondition hne
  refine ⟨shown, text, predicate, hasks, rfl, rfl, htext, hparse, fun item => ?_⟩
  rw [hholds, hselects]

theorem RecordScan.asks_request {scan : RecordScan} {table : TableSchema} {request : ScanRequest}
    (hrequest : scan.request table = .ok request) :
    ∃ paths, scan.search.Asks table paths request.read.page ∧ request.read.table = table.name ∧
      request.segment = scan.segment ∧ request.total = scan.total := by
  obtain ⟨_, _, hbuild⟩ := bind_eq_ok_iff.mp hrequest
  obtain ⟨⟨⟨⟩, builder⟩, hrun, hreturn⟩ := bind_eq_ok_iff.mp hbuild
  cases hreturn
  obtain ⟨clauses, ⟨paths, hnarrows⟩, hreads⟩ := (scan.search.adds_narrow table).run_ok hrun
  obtain ⟨shown, hasks⟩ := RecordSearch.asks_read hreads hnarrows.conditions hnarrows.meets
    hnarrows.paths hnarrows.projection
  exact ⟨shown, hasks, rfl, rfl, rfl⟩

end RecordStore
