import RecordStore.Proofs.Expression.Update

/-!
# What requests say

A builder is described by the clauses that its texts are read as. Every step of building adds clauses
to those collected so far, and the compiled request is read as all of them.
-/

namespace RecordStore.Expression

/-- The actions of a request by their keywords, what its conditions and those on its key ask of an
item, and the paths that it reads. -/
structure Clauses where
  set : List Action
  remove : List Action
  add : List Action
  delete : List Action
  conditions : List (Item → Bool)
  keyConditions : List (Item → Bool)
  projection : List (List String)

namespace Clauses

def none : Clauses := ⟨[], [], [], [], [], [], []⟩

def append (clauses added : Clauses) : Clauses where
  set := clauses.set ++ added.set
  remove := clauses.remove ++ added.remove
  add := clauses.add ++ added.add
  delete := clauses.delete ++ added.delete
  conditions := clauses.conditions ++ added.conditions
  keyConditions := clauses.keyConditions ++ added.keyConditions
  projection := clauses.projection ++ added.projection

instance : Append Clauses := ⟨append⟩

/-- The clauses with a single action, and those with a single condition. -/
def ofSet (action : Action) : Clauses := { none with set := [action] }

def ofRemove (action : Action) : Clauses := { none with remove := [action] }

def ofAdd (action : Action) : Clauses := { none with add := [action] }

def ofDelete (action : Action) : Clauses := { none with delete := [action] }

def ofCondition (meaning : Item → Bool) : Clauses := { none with conditions := [meaning] }

def ofKeyCondition (meaning : Item → Bool) : Clauses := { none with keyConditions := [meaning] }

def ofPath (path : List String) : Clauses := { none with projection := [path] }

/-- All actions in the order in which an update makes them. -/
def actions (clauses : Clauses) : List Action :=
  clauses.set ++ (clauses.remove ++ (clauses.add ++ clauses.delete))

/-- Whether an item meets all conditions. -/
def meets (clauses : Clauses) (item : Item) : Bool :=
  clauses.conditions.all fun meaning => meaning item

/-- Whether an item meets all conditions on the key. -/
def selects (clauses : Clauses) (item : Item) : Bool :=
  clauses.keyConditions.all fun meaning => meaning item

section Views

variable (clauses added : Clauses)

@[simp] theorem append_set : (clauses ++ added).set = clauses.set ++ added.set := rfl

@[simp] theorem append_remove : (clauses ++ added).remove = clauses.remove ++ added.remove := rfl

@[simp] theorem append_add : (clauses ++ added).add = clauses.add ++ added.add := rfl

@[simp] theorem append_delete : (clauses ++ added).delete = clauses.delete ++ added.delete := rfl

@[simp] theorem append_conditions :
    (clauses ++ added).conditions = clauses.conditions ++ added.conditions := rfl

@[simp] theorem append_keyConditions :
    (clauses ++ added).keyConditions = clauses.keyConditions ++ added.keyConditions := rfl

@[simp] theorem append_projection :
    (clauses ++ added).projection = clauses.projection ++ added.projection := rfl

end Views

theorem append_none (clauses : Clauses) : clauses ++ none = clauses := by
  change append clauses none = clauses
  simp [append, none]

theorem none_append (clauses : Clauses) : none ++ clauses = clauses := by
  change append none clauses = clauses
  simp [append, none]

theorem append_assoc (first second third : Clauses) :
    first ++ second ++ third = first ++ (second ++ third) := by
  change append (append first second) third = append first (append second third)
  simp [append]

end Clauses

/-- The texts of a projection, among which none comes twice, are read as the paths. -/
structure PathsRead (bindings : Bindings) (texts : List String) (paths : List (List String)) :
    Prop where
  sound : ∀ text ∈ texts, ∃ path ∈ paths, IsPath bindings text path
  complete : ∀ path ∈ paths, ∃ text ∈ texts, IsPath bindings text path

theorem Builder.mem_addPath {texts : List String} {added text : String} :
    text ∈ addPath texts added ↔ text ∈ texts ∨ text = added := by
  unfold addPath
  split
  · rename_i hheld
    constructor
    · exact .inl
    · rintro (hmem | rfl)
      · exact hmem
      · simpa using hheld
  · simp

theorem Builder.mem_foldl_addPath {texts others : List String} {text : String} :
    text ∈ others.foldl addPath texts ↔ text ∈ texts ∨ text ∈ others := by
  induction others generalizing texts with
  | nil => simp
  | cons other rest ih => rw [List.foldl_cons, ih, mem_addPath, List.mem_cons, or_assoc]

theorem PathsRead.union {bindings : Bindings} {texts others : List String}
    {paths more : List (List String)} (hread : PathsRead bindings texts paths)
    (hothers : PathsRead bindings others more) :
    PathsRead bindings (others.foldl Builder.addPath texts) (paths ++ more) := by
  constructor
  · intro text hmem
    rcases Builder.mem_foldl_addPath.mp hmem with hmem | hmem
    · obtain ⟨path, hpath, hreads⟩ := hread.sound text hmem
      exact ⟨path, List.mem_append_left _ hpath, hreads⟩
    · obtain ⟨path, hpath, hreads⟩ := hothers.sound text hmem
      exact ⟨path, List.mem_append_right _ hpath, hreads⟩
  · intro path hmem
    rcases List.mem_append.mp hmem with hmem | hmem
    · obtain ⟨text, htext, hreads⟩ := hread.complete path hmem
      exact ⟨text, Builder.mem_foldl_addPath.mpr (.inl htext), hreads⟩
    · obtain ⟨text, htext, hreads⟩ := hothers.complete path hmem
      exact ⟨text, Builder.mem_foldl_addPath.mpr (.inr htext), hreads⟩

/-- The texts of a builder are read as clauses. -/
structure TextsRead (bindings : Bindings) (builder : Builder) (clauses : Clauses) : Prop where
  set : List.Forall₂ (IsAction bindings .set) builder.set clauses.set
  remove : List.Forall₂ (IsAction bindings .remove) builder.remove clauses.remove
  add : List.Forall₂ (IsAction bindings .add) builder.add clauses.add
  delete : List.Forall₂ (IsAction bindings .delete) builder.delete clauses.delete
  conditions : List.Forall₂ (Expresses bindings .conjunction) builder.conditions clauses.conditions
  keyConditions : List.Forall₂ (Expresses bindings .conjunction) builder.keyConditions
    clauses.keyConditions
  projection : PathsRead bindings builder.projection clauses.projection

structure Builder.Reads (builder : Builder) (clauses : Clauses) : Prop where
  formed : builder.aliases.WellFormed
  texts : ∀ bindings : Bindings, bindings.Cover builder.aliases →
    TextsRead bindings builder clauses

theorem Builder.reads_empty {stem : String} (hstem : IsStem stem) :
    (Builder.empty stem).Reads .none where
  formed := Aliases.wellFormed_empty hstem
  texts _ _ := ⟨.nil, .nil, .nil, .nil, .nil, .nil, by simp [empty, Clauses.none], by simp [empty, Clauses.none]⟩

/-- Whenever the computation succeeds, it adds clauses with a property to those of the builder. -/
def Building.Adds {α : Type} (computation : Building α) (property : α → Clauses → Prop) : Prop :=
  ∀ ⦃builder clauses result later⦄, builder.Reads clauses →
    computation.run.run builder = (.ok result, later) →
    ∃ added, property result added ∧ later.Reads (clauses ++ added) ∧
      later.aliases.stem = builder.aliases.stem

theorem Builder.run_withAliases_ok {α : Type} {rendering : Rendering α} {builder later : Builder}
    {result : α} (hrun : (Builder.withAliases rendering).run.run builder = (.ok result, later)) :
    ∃ aliases, rendering.run.run builder.aliases = (.ok result, aliases) ∧
      later = { builder with aliases } := by
  rcases hrendering : rendering.run.run builder.aliases with ⟨outcome, aliases⟩
  have hwith : (Builder.withAliases rendering).run.run builder = (outcome, { builder with aliases }) := by
    change Builder.withAliases rendering builder = _
    rw [Builder.withAliases, hrendering]
  rw [hwith] at hrun
  cases hrun
  exact ⟨aliases, rfl, rfl⟩

section Adds

variable {α β : Type} {property other : α → Clauses → Prop} {final : β → Clauses → Prop}

theorem Building.Adds.bind {computation : Building α} {next : α → Building β}
    (hfirst : computation.Adds property)
    (hnext : ∀ middle added, property middle added →
      (next middle).Adds fun result others => final result (added ++ others)) :
    Building.Adds (computation >>= next) final := by
  intro builder clauses result later hreads hrun
  obtain ⟨middle, between, hfirstRun, hnextRun⟩ := run_bind_ok hrun
  obtain ⟨added, hadded, hbetween, hstem⟩ := hfirst hreads hfirstRun
  obtain ⟨others, hothers, hlater, hstemLater⟩ := hnext middle added hadded hbetween hnextRun
  refine ⟨added ++ others, hothers, ?_, hstemLater.trans hstem⟩
  rw [← Clauses.append_assoc]
  exact hlater

theorem Building.Adds.pure {value : α} (hvalue : property value .none) :
    Building.Adds (Pure.pure value) property := by
  intro builder clauses result later hreads hrun
  obtain ⟨rfl, rfl⟩ := run_pure_ok hrun
  refine ⟨.none, hvalue, ?_, rfl⟩
  rw [Clauses.append_none]
  exact hreads

theorem Building.Adds.mono {computation : Building α} (hadds : computation.Adds property)
    (himplies : ∀ result added, property result added → other result added) :
    computation.Adds other := by
  intro builder clauses result later hreads hrun
  obtain ⟨added, hadded, hlater⟩ := hadds hreads hrun
  exact ⟨added, himplies _ _ hadded, hlater⟩

theorem Building.Adds.bind_except {outcome : Except Error α} {next : α → Building β}
    (hnext : ∀ value, outcome = .ok value → (next value).Adds final) :
    Building.Adds (liftM outcome >>= next) final := by
  intro builder clauses result later hreads hrun
  obtain ⟨value, between, hvalue, hrest⟩ := run_bind_ok hrun
  obtain ⟨houtcome, rfl⟩ := run_except_ok hvalue
  exact hnext value houtcome hreads hrest

theorem Building.Adds.throw (error : Error) :
    Building.Adds (MonadExcept.throw error : Building α) property := by
  intro builder clauses result later _ hrun
  cases hrun

/-- A step that renders a text and keeps it as a clause. -/
theorem Building.Adds.render {rendering : Rendering α} {rendered : Bindings → α → Prop}
    (hrender : rendering.Ensures rendered) {keep : α → Builder → Builder} {added : Clauses}
    (haliases : ∀ text builder, (keep text builder).aliases = builder.aliases)
    (hkeep : ∀ bindings text builder clauses, rendered bindings text →
      TextsRead bindings builder clauses →
      TextsRead bindings (keep text builder) (clauses ++ added)) :
    Building.Adds (Builder.withAliases rendering >>= fun text => modify (keep text))
      fun _ clauses => clauses = added := by
  intro builder clauses result later hreads hrun
  obtain ⟨text, between, hrendering, hmodify⟩ := run_bind_ok hrun
  obtain ⟨aliases, hrenderRun, rfl⟩ := Builder.run_withAliases_ok hrendering
  obtain ⟨hformed, hextends, htext⟩ := hrender hreads.formed hrenderRun
  cases hmodify
  refine ⟨added, rfl, ⟨?_, ?_⟩, ?_⟩
  · rw [haliases]
    exact hformed
  · intro bindings hcover
    rw [haliases] at hcover
    refine hkeep bindings text _ clauses (htext bindings hcover) ?_
    have hread := hreads.texts bindings (hcover.of_extends hextends)
    exact ⟨hread.set, hread.remove, hread.add, hread.delete, hread.conditions, hread.keyConditions,
      hread.projection⟩
  · rw [haliases]
    exact hextends.stem

end Adds

/-! ### Steps of building -/

namespace Builder

section Steps

variable {path : List String} (table : TableSchema)

theorem adds_set {rendering : Rendering String} {action : Action}
    (hrender : rendering.Ensures fun bindings text => IsAction bindings .set text action) :
    Building.Adds (withAliases rendering >>= addSet) fun _ clauses => clauses = .ofSet action := by
  refine .render hrender (fun _ _ => rfl) ?_
  intro bindings text builder clauses htext hread
  refine ⟨List.rel_append hread.set (.cons htext .nil), ?_, ?_, ?_, ?_, ?_, ?_⟩ <;>
    simp [Clauses.ofSet, Clauses.none, hread.remove, hread.add, hread.delete, hread.conditions,
      hread.keyConditions, hread.projection]

theorem adds_remove {rendering : Rendering String} {action : Action}
    (hrender : rendering.Ensures fun bindings text => IsAction bindings .remove text action) :
    Building.Adds (withAliases rendering >>= fun text =>
        modify fun builder => { builder with remove := builder.remove ++ [text] })
      fun _ clauses => clauses = .ofRemove action := by
  refine .render hrender (fun _ _ => rfl) ?_
  intro bindings text builder clauses htext hread
  refine ⟨?_, List.rel_append hread.remove (.cons htext .nil), ?_, ?_, ?_, ?_, ?_⟩ <;>
    simp [Clauses.ofRemove, Clauses.none, hread.set, hread.add, hread.delete, hread.conditions,
      hread.keyConditions, hread.projection]

theorem adds_add {rendering : Rendering String} {action : Action}
    (hrender : rendering.Ensures fun bindings text => IsAction bindings .add text action) :
    Building.Adds (withAliases rendering >>= addAdd) fun _ clauses => clauses = .ofAdd action := by
  refine .render hrender (fun _ _ => rfl) ?_
  intro bindings text builder clauses htext hread
  refine ⟨?_, ?_, List.rel_append hread.add (.cons htext .nil), ?_, ?_, ?_, ?_⟩ <;>
    simp [Clauses.ofAdd, Clauses.none, hread.set, hread.remove, hread.delete, hread.conditions,
      hread.keyConditions, hread.projection]

theorem adds_delete {rendering : Rendering String} {action : Action}
    (hrender : rendering.Ensures fun bindings text => IsAction bindings .delete text action) :
    Building.Adds (withAliases rendering >>= addDelete)
      fun _ clauses => clauses = .ofDelete action := by
  refine .render hrender (fun _ _ => rfl) ?_
  intro bindings text builder clauses htext hread
  refine ⟨?_, ?_, ?_, List.rel_append hread.delete (.cons htext .nil), ?_, ?_, ?_⟩ <;>
    simp [Clauses.ofDelete, Clauses.none, hread.set, hread.remove, hread.add, hread.conditions,
      hread.keyConditions, hread.projection]

theorem adds_condition {rendering : Rendering String} {meaning : Item → Bool}
    (hrender : rendering.Ensures fun bindings text =>
      Expresses bindings .conjunction text meaning) :
    Building.Adds (withAliases rendering >>= addCondition)
      fun _ clauses => clauses = .ofCondition meaning := by
  refine .render hrender (fun _ _ => rfl) ?_
  intro bindings text builder clauses htext hread
  refine ⟨?_, ?_, ?_, ?_, List.rel_append hread.conditions (.cons htext .nil), ?_, ?_⟩ <;>
    simp [Clauses.ofCondition, Clauses.none, hread.set, hread.remove, hread.add, hread.delete,
      hread.keyConditions, hread.projection]

theorem adds_setAttribute (hpath : path ≠ []) (value : Attribute) :
    Building.Adds (setAttribute path value)
      fun _ clauses => clauses = .ofSet (.set path (.value value)) := by
  have hshape : setAttribute path value = withAliases (do
      let path ← Aliases.path path
      let value ← Aliases.value value
      return path ++ " = " ++ value) >>= addSet := rfl
  rw [hshape]
  refine adds_set (.bind (ensures_path hpath) fun place => .bind (ensures_value value) fun text =>
    .pure ?_)
  intro bindings hvalue hplace
  exact isAction_set hplace hvalue.isOperand

theorem adds_removePath (hpath : path ≠ []) :
    Building.Adds (removePath path) fun _ clauses => clauses = .ofRemove (.remove path) :=
  adds_remove ((ensures_path hpath).mono fun _ _ => isAction_remove)

/-- The action by which a number at a path is increased. -/
def incrementClauses (path : List String) (amount : Number) (element : ElementType) : Clauses :=
  if path.length = 1 then
    .ofAdd (.add path (.value (.number (amount.narrow element).text)))
  else
    .ofSet (.set path (.plus (.orElse path (.value (.number (Number.zero element).text)))
      (.value (.number (amount.narrow element).text))))

theorem adds_increment_attribute (hlength : path.length = 1) (amount : Number)
    (element : ElementType) (hnumeric : element.isNumeric = true) :
    Building.Adds (increment path amount element) fun _ clauses =>
      clauses = .ofAdd (.add path (.value (.number (amount.narrow element).text))) := by
  have hshape : increment path amount element = withAliases (do
      let place ← Aliases.path path
      let amount ← Aliases.value (.number (amount.narrow element).text)
      return place ++ " " ++ amount) >>= addAdd := by
    unfold increment
    simp only [hnumeric, if_pos hlength]
    rfl
  have hpath : path ≠ [] := by
    rintro rfl
    cases hlength
  rw [hshape]
  refine adds_add (.bind (ensures_path hpath) fun place => .bind (ensures_value _) fun text =>
    .pure ?_)
  intro bindings hvalue hplace
  exact isAction_add hplace hvalue

theorem adds_increment_nested (hpath : path ≠ []) (hlength : path.length ≠ 1) (amount : Number)
    (element : ElementType) (hnumeric : element.isNumeric = true) :
    Building.Adds (increment path amount element) fun _ clauses =>
      clauses = .ofSet (.set path (.plus (.orElse path (.value (.number (Number.zero element).text)))
        (.value (.number (amount.narrow element).text)))) := by
  have hshape : increment path amount element = withAliases (do
      let place ← Aliases.path path
      let amount ← Aliases.value (.number (amount.narrow element).text)
      let zero ← Aliases.value (.number (Number.zero element).text)
      return place ++ " = if_not_exists(" ++ place ++ ", " ++ zero ++ ") + " ++ amount) >>=
        addSet := by
    unfold increment
    simp only [hnumeric, if_neg hlength]
    rfl
  rw [hshape]
  refine adds_set (.bind (ensures_path hpath) fun place => .bind (ensures_value _) fun amount =>
    .bind (ensures_value _) fun zero => .pure ?_)
  intro bindings hzero hamount hplace
  have haction := isAction_setSum hplace (isOperand_orElse hplace hzero) hamount.isOperand
  have hopen : " = if_not_exists(" = " = " ++ "if_not_exists(" := rfl
  have hclose : ") + " = ")" ++ " + " := rfl
  rw [hopen, hclose]
  simp only [String.append_assoc] at haction ⊢
  exact haction

theorem adds_increment (hpath : path ≠ []) (amount : Number) (element : ElementType) :
    Building.Adds (increment path amount element) fun _ clauses =>
      element.isNumeric = true ∧ clauses = incrementClauses path amount element := by
  cases hnumeric : element.isNumeric with
  | false =>
    unfold increment
    rw [hnumeric]
    exact .throw _
  | true =>
    unfold incrementClauses
    split
    · rename_i hlength
      exact (adds_increment_attribute hlength amount element hnumeric).mono
        fun _ _ hclauses => ⟨rfl, hclauses⟩
    · rename_i hlength
      exact (adds_increment_nested hpath hlength amount element hnumeric).mono
        fun _ _ hclauses => ⟨rfl, hclauses⟩

/-- The action by which items are appended to a list that counts as empty while it is absent. -/
def appendClauses (path : List String) (items : Attribute) : Clauses :=
  .ofSet (.set path (.append (.orElse path (.value (.list []))) (.value items)))

theorem adds_appendEncoded (hpath : path ≠ []) (items : Attribute) :
    Building.Adds (do
      let place ← placeholders path
      let empty ← bound (.list [])
      let items ← bound items
      addSet (place ++ " = list_append(if_not_exists(" ++ place ++ ", " ++ empty ++ "), " ++
        items ++ ")"))
      fun _ clauses => clauses = appendClauses path items := by
  change Building.Adds (withAliases (do
      let place ← Aliases.path path
      let empty ← Aliases.value (.list [])
      let items ← Aliases.value items
      return place ++ " = list_append(if_not_exists(" ++ place ++ ", " ++ empty ++ "), " ++
        items ++ ")") >>= addSet) _
  refine adds_set (.bind (ensures_path hpath) fun place => .bind (ensures_value _) fun empty =>
    .bind (ensures_value _) fun text => .pure ?_)
  intro bindings hitems hempty hplace
  have haction := isAction_set hplace (isOperand_append (isOperand_orElse hplace hempty) hitems)
  have hopen : " = list_append(if_not_exists(" = " = " ++ ("list_append(" ++ "if_not_exists(") :=
    rfl
  have hclose : "), " = ")" ++ ", " := rfl
  rw [hopen, hclose]
  simp only [String.append_assoc] at haction ⊢
  exact haction

theorem adds_append (hpath : path ≠ []) (type : ValueType) (items : List Value) :
    Building.Adds (append table path type items) fun _ clauses =>
      (items = [] ∧ clauses = .none) ∨
      ∃ encoded, encodeElements table .list type items = .ok encoded ∧
        items ≠ [] ∧ clauses = appendClauses path encoded := by
  unfold append
  cases items with
  | nil => exact .pure (.inl ⟨rfl, rfl⟩)
  | cons item rest =>
    refine .bind_except fun encoded hencoded => ?_
    exact (adds_appendEncoded hpath encoded).mono fun _ _ hclauses =>
      .inr ⟨encoded, hencoded, List.cons_ne_nil _ _, hclauses⟩

theorem adds_addEncoded (hpath : path ≠ []) (elements : Attribute) :
    Building.Adds (do
      let place ← placeholders path
      addAdd (place ++ " " ++ (← bound elements)))
      fun _ clauses => clauses = .ofAdd (.add path (.value elements)) := by
  change Building.Adds (withAliases (do
    let place ← Aliases.path path
    return place ++ " " ++ (← Aliases.value elements)) >>= addAdd) _
  refine adds_add (.bind (ensures_path hpath) fun place => .bind (ensures_value _) fun text =>
    .pure ?_)
  intro bindings hvalue hplace
  exact isAction_add hplace hvalue

theorem adds_deleteEncoded (hpath : path ≠ []) (elements : Attribute) :
    Building.Adds (do
      let place ← placeholders path
      addDelete (place ++ " " ++ (← bound elements)))
      fun _ clauses => clauses = .ofDelete (.delete path (.value elements)) := by
  change Building.Adds (withAliases (do
    let place ← Aliases.path path
    return place ++ " " ++ (← Aliases.value elements)) >>= addDelete) _
  refine adds_delete (.bind (ensures_path hpath) fun place => .bind (ensures_value _) fun text =>
    .pure ?_)
  intro bindings hvalue hplace
  exact isAction_delete hplace hvalue

theorem adds_addElements (hpath : path ≠ []) (type : ValueType) (elements : List Value) :
    Building.Adds (addElements table path type elements) fun _ clauses =>
      (elements = [] ∧ clauses = .none) ∨
      ∃ encoded, encodeElements table .set type elements = .ok encoded ∧
        elements ≠ [] ∧ clauses = .ofAdd (.add path (.value encoded)) := by
  unfold addElements
  cases elements with
  | nil => exact .pure (.inl ⟨rfl, rfl⟩)
  | cons element rest =>
    refine .bind_except fun encoded hencoded => ?_
    exact (adds_addEncoded hpath encoded).mono fun _ _ hclauses =>
      .inr ⟨encoded, hencoded, List.cons_ne_nil _ _, hclauses⟩

theorem adds_deleteElements (hpath : path ≠ []) (type : ValueType) (elements : List Value) :
    Building.Adds (deleteElements table path type elements) fun _ clauses =>
      (elements = [] ∧ clauses = .none) ∨
      ∃ encoded, encodeElements table .set type elements = .ok encoded ∧
        elements ≠ [] ∧ clauses = .ofDelete (.delete path (.value encoded)) := by
  unfold deleteElements
  cases elements with
  | nil => exact .pure (.inl ⟨rfl, rfl⟩)
  | cons element rest =>
    refine .bind_except fun encoded hencoded => ?_
    exact (adds_deleteEncoded hpath encoded).mono fun _ _ hclauses =>
      .inr ⟨encoded, hencoded, List.cons_ne_nil _ _, hclauses⟩

/-! ### Conditions -/

/-- A condition at the top stands beside others that `AND` joins it with. -/
theorem ensures_renderTop (condition : Condition) :
    (condition.renderTop table).Ensures fun bindings text =>
      Expresses bindings .conjunction text fun item => condition.holds table item := by
  unfold Condition.renderTop
  refine .bind (ensures_render table condition) fun text => ?_
  cases condition with
  | any members =>
    refine .pure fun bindings htext => ?_
    by_cases hlength : members.length > 1
    · rw [if_pos hlength]
      exact htext.of_level.group.conjunction
    · rw [if_neg hlength]
      rw [Condition.level, if_neg hlength] at htext
      exact htext.conjunction
  | all members =>
    refine .pure fun bindings htext => ?_
    by_cases hlength : members.length > 1
    · rw [Condition.level, if_pos hlength] at htext
      exact htext
    · rw [Condition.level, if_neg hlength] at htext
      exact htext.conjunction
  | leaf | not => exact .pure fun bindings htext => htext.conjunction

theorem adds_requireCondition (condition : Condition) :
    Building.Adds (requireCondition table condition)
      fun _ clauses => clauses = .ofCondition fun item => condition.holds table item :=
  adds_condition (ensures_renderTop table condition)

theorem adds_requireEqual (hpath : path ≠ []) (value : Attribute) :
    Building.Adds (requireEqual path value) fun _ clauses =>
      clauses = .ofCondition fun item => compares .equal value (Item.resolve? item path) := by
  have hshape : requireEqual path value = withAliases (do
      let path ← Aliases.path path
      let value ← Aliases.value value
      return path ++ " = " ++ value) >>= addCondition := rfl
  rw [hshape]
  refine adds_condition (.bind (ensures_path hpath) fun place => .bind (ensures_value value)
    fun text => .pure ?_)
  intro bindings hvalue hplace
  have hcondition := (expresses_compare .equal hplace hvalue).conjunction
  have hequal : " = " = " " ++ Comparator.equal.text ++ " " := rfl
  rw [hequal]
  simp only [String.append_assoc] at hcondition ⊢
  exact hcondition

theorem adds_requireAbsent (hpath : path ≠ []) :
    Building.Adds (requireAbsent path) fun _ clauses =>
      clauses = .ofCondition fun item => (Item.resolve? item path).isNone := by
  have hshape : requireAbsent path = withAliases (do
      let path ← Aliases.path path
      return "attribute_not_exists(" ++ path ++ ")") >>= addCondition := rfl
  rw [hshape]
  refine adds_condition (.bind (ensures_path hpath) fun place => .pure ?_)
  intro bindings hplace
  exact (expresses_absent hplace).conjunction

theorem adds_requireAbsentOrLess (hpath : path ≠ []) (value : Attribute) :
    Building.Adds (requireAbsentOrLess path value) fun _ clauses =>
      clauses = .ofCondition fun item =>
        (Item.resolve? item path).isNone || compares .less value (Item.resolve? item path) := by
  have hshape : requireAbsentOrLess path value = withAliases (do
      let path ← Aliases.path path
      let value ← Aliases.value value
      return "(attribute_not_exists(" ++ path ++ ") OR " ++ path ++ " < " ++ value ++ ")") >>=
        addCondition := rfl
  rw [hshape]
  refine adds_condition (.bind (ensures_path hpath) fun place => .bind (ensures_value value)
    fun text => .pure ?_)
  intro bindings hvalue hplace
  have hboth := (expresses_absent hplace).conjunction.disjunction.either
    (expresses_compare .less hplace hvalue).conjunction.disjunction
  have hopen : "(attribute_not_exists(" = "(" ++ "attribute_not_exists(" := rfl
  have hclose : ") OR " = ")" ++ " OR " := rfl
  have hless : " < " = " " ++ Comparator.less.text ++ " " := rfl
  have hgroup := hboth.group.conjunction
  rw [hopen, hclose, hless]
  simp only [String.append_assoc] at hgroup ⊢
  exact hgroup

end Steps

/-! ### Nested builders -/

theorem Reads.merge {builder other later : Builder} {clauses added : Clauses}
    (hreads : builder.Reads clauses) (hother : other.Reads added)
    (hparent : builder.aliases.IsParentOf other.aliases)
    (hrun : (Builder.merge other).run.run builder = (.ok (), later)) :
    later.Reads (clauses ++ added) ∧ later.aliases.stem = builder.aliases.stem := by
  obtain ⟨⟨⟩, between, hwith, hmodify⟩ := run_bind_ok hrun
  obtain ⟨aliases, hmerge, rfl⟩ := run_withAliases_ok hwith
  obtain ⟨hformed, hextends, hcovers⟩ := hreads.formed.merge hother.formed hparent hmerge
  cases hmodify
  refine ⟨⟨hformed, ?_⟩, hextends.stem⟩
  intro bindings hcover
  have hown := hreads.texts bindings (hcover.of_extends hextends)
  have htaken := hother.texts bindings (hcovers bindings hcover)
  exact ⟨List.rel_append hown.set htaken.set, List.rel_append hown.remove htaken.remove,
    List.rel_append hown.add htaken.add, List.rel_append hown.delete htaken.delete,
    List.rel_append hown.conditions htaken.conditions,
    List.rel_append hown.keyConditions htaken.keyConditions,
    hown.projection.union htaken.projection⟩

/-! ### The compiled request -/

end Builder

/-- What the placeholders of a compiled request stand for. -/
def Compiled.bindings (compiled : Compiled) : Bindings :=
  ⟨compiled.names.getD [], compiled.values.getD []⟩

namespace Builder

variable {builder : Builder} {clauses : Clauses}

theorem eq_nil_iff_of_forall₂ {α β : Type} {relation : α → β → Prop} {left : List α}
    {right : List β} (hrelated : List.Forall₂ relation left right) : left = [] ↔ right = [] := by
  cases hrelated <;> simp

theorem cover_compile (builder : Builder) : builder.compile.bindings.Cover builder.aliases := by
  have hgetD : ∀ {α : Type} (entries : List α),
      (if entries.isEmpty then none else some entries).getD [] = entries := by
    intro α entries
    cases entries <;> rfl
  constructor
  · intro placeholder segment hheld
    change Entries.find? ((if builder.aliases.names.isEmpty then none
      else some builder.aliases.names).getD []) placeholder = some segment
    rw [hgetD]
    exact hheld
  · intro placeholder value hheld
    change Entries.find? ((if builder.aliases.values.isEmpty then none
      else some builder.aliases.values).getD []) placeholder = some value
    rw [hgetD]
    exact hheld

theorem Reads.textsRead (hreads : builder.Reads clauses) :
    TextsRead builder.compile.bindings builder clauses :=
  hreads.texts _ (cover_compile builder)

/-- The condition of a compiled request is read as the conjunction of the conditions collected. -/
theorem Reads.condition (hreads : builder.Reads clauses) (hne : clauses.conditions ≠ []) :
    ∃ text predicate, builder.compile.condition = some text ∧
      Predicate.parse builder.compile.bindings text = .ok predicate ∧
      ∀ item, predicate.holds item = .ok (clauses.meets item) := by
  have hconditions := hreads.textsRead.conditions
  have htexts : builder.conditions ≠ [] := (eq_nil_iff_of_forall₂ hconditions).not.mpr hne
  obtain ⟨tokens, predicate, hlexes, hderived, hholds⟩ := expresses_all hconditions htexts
  refine ⟨" AND ".intercalate builder.conditions, predicate, ?_,
    (ConditionTokens.conjunction hderived).parse hlexes, hholds⟩
  change joined " AND " builder.conditions = _
  rw [joined, if_neg (by simpa using htexts)]

theorem Reads.condition_eq_none (hreads : builder.Reads clauses)
    (hnone : clauses.conditions = []) : builder.compile.condition = none := by
  have htexts : builder.conditions = [] :=
    (eq_nil_iff_of_forall₂ hreads.textsRead.conditions).mpr hnone
  change joined " AND " builder.conditions = none
  rw [htexts]
  rfl

theorem Reads.meets (hreads : builder.Reads clauses) (item : Item) :
    Expression.meets item builder.compile.condition builder.compile.bindings =
      .ok (clauses.meets item) := by
  by_cases hne : clauses.conditions = []
  · rw [hreads.condition_eq_none hne, Clauses.meets, hne]
    rfl
  · obtain ⟨text, predicate, hcondition, hparse, hholds⟩ := hreads.condition hne
    rw [hcondition, Expression.meets, hparse, ← hholds]
    rfl

theorem Reads.hasUpdates (hreads : builder.Reads clauses) :
    builder.hasUpdates = true ↔ clauses.actions ≠ [] := by
  have hread := hreads.textsRead
  simp only [Builder.hasUpdates, Clauses.actions, ne_eq, List.append_eq_nil_iff,
    ← eq_nil_iff_of_forall₂ hread.set, ← eq_nil_iff_of_forall₂ hread.remove,
    ← eq_nil_iff_of_forall₂ hread.add, ← eq_nil_iff_of_forall₂ hread.delete, Bool.not_eq_true',
    ← Bool.not_eq_true, Bool.and_eq_true, List.isEmpty_iff, and_assoc]

theorem Reads.update_eq_none (hreads : builder.Reads clauses) (hnone : clauses.actions = []) :
    builder.compile.update = none := by
  have hread := hreads.textsRead
  simp only [Clauses.actions, List.append_eq_nil_iff, ← eq_nil_iff_of_forall₂ hread.set,
    ← eq_nil_iff_of_forall₂ hread.remove, ← eq_nil_iff_of_forall₂ hread.add,
    ← eq_nil_iff_of_forall₂ hread.delete] at hnone
  obtain ⟨hset, hremove, hadd, hdelete⟩ := hnone
  change joined " " (group "SET" builder.set ++ group "REMOVE" builder.remove ++
    group "ADD" builder.add ++ group "DELETE" builder.delete) = none
  rw [hset, hremove, hadd, hdelete]
  rfl

/-- The update of a compiled request is read as the actions collected. -/
theorem Reads.update (hreads : builder.Reads clauses) (hne : clauses.actions ≠ []) :
    ∃ text, builder.compile.update = some text ∧
      Action.parse builder.compile.bindings text = .ok clauses.actions := by
  have hread := hreads.textsRead
  have hgroups := (((areGroups_nil.prepend begins_delete hread.delete).prepend begins_add
    hread.add).prepend begins_remove hread.remove).prepend begins_set hread.set
  have hactions : clauses.set ++ (clauses.remove ++ (clauses.add ++ (clauses.delete ++ []))) =
      clauses.actions := by
    rw [List.append_nil, Clauses.actions]
  rw [hactions] at hgroups
  obtain ⟨tokens, hlexes, htokens⟩ := hgroups.lexes
  refine ⟨_, ?_, htokens.parse hne hlexes⟩
  have htexts : group "SET" builder.set ++ (group "REMOVE" builder.remove ++
      (group "ADD" builder.add ++ (group "DELETE" builder.delete ++ []))) ≠ [] := by
    intro hempty
    rw [hempty] at hgroups
    exact hne hgroups.eq_nil
  change joined " " (group "SET" builder.set ++ group "REMOVE" builder.remove ++
    group "ADD" builder.add ++ group "DELETE" builder.delete) = _
  rw [joined, if_neg]
  · simp only [List.append_assoc, List.append_nil]
  · simpa [List.append_assoc] using htexts

end Builder

/-- What a computation adds to a new builder is all that the builder says. -/
theorem Building.Adds.run_stem {α : Type} {computation : Building α}
    {property : α → Clauses → Prop} (hadds : computation.Adds property) {stem : String}
    (hstem : IsStem stem) {result : α} {builder : Builder}
    (hrun : Builder.run stem computation = .ok (result, builder)) :
    ∃ clauses, property result clauses ∧ builder.Reads clauses := by
  unfold Builder.run at hrun
  split at hrun
  · rename_i hbuilt
    cases hrun
    obtain ⟨clauses, hclauses, hreads, _⟩ := hadds (Builder.reads_empty hstem) hbuilt
    rw [Clauses.none_append] at hreads
    exact ⟨clauses, hclauses, hreads⟩
  · cases hrun

theorem Building.Adds.run_ok {α : Type} {computation : Building α} {property : α → Clauses → Prop}
    (hadds : computation.Adds property) {result : α} {builder : Builder}
    (hrun : Builder.run "" computation = .ok (result, builder)) :
    ∃ clauses, property result clauses ∧ builder.Reads clauses :=
  hadds.run_stem isStem_empty hrun

end RecordStore.Expression
