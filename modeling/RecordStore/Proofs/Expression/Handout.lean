import RecordStore.Proofs.Expression.Search
import RecordStore.Proofs.Update.Composed

/-!
# Placeholders handed out

A generator hands out a placeholder for each path segment and for each value that a request names.
Every call on a builder is described by what it was handed out, and the texts that it adds hold no
other placeholders.
-/

namespace RecordStore

namespace Expression

/-- A placeholder with what it was handed out for. -/
inductive Handout where
  | name (segment placeholder : String)
  | value (bound : Attribute) (placeholder : String)

namespace Handout

/-- The token by which a text refers to the placeholder. -/
def token : Handout → Token
  | name _ placeholder => .name placeholder
  | value _ placeholder => .value placeholder

def valuePlaceholder? : Handout → Option String
  | name .. => none
  | value _ placeholder => some placeholder

end Handout

/-- A generator hands out placeholders one after another, and stands afterwards as `later`. -/
inductive Aliases.HandsOut : (aliases : Aliases) → List Handout → (later : Aliases) → Prop
  | nothing (aliases : Aliases) : HandsOut aliases [] aliases
  | name {aliases between later : Aliases} {segment placeholder : String} {rest : List Handout}
    (hname : (Aliases.name segment).run aliases = (placeholder, between))
    (hrest : HandsOut between rest later) :
    HandsOut aliases (.name segment placeholder :: rest) later
  | value {aliases between later : Aliases} {bound : Attribute} {placeholder : String}
    {rest : List Handout} (hvalue : (Aliases.value bound).run aliases = (placeholder, between))
    (hrest : HandsOut between rest later) :
    HandsOut aliases (.value bound placeholder :: rest) later

namespace Aliases

variable {aliases between later : Aliases} {segment placeholder : String}

/-- A segment keeps its placeholder, and a new one gets the next. -/
theorem run_name (hrun : (name segment).run aliases = (placeholder, later)) :
    (∃ index, aliases.segments.idxOf? segment = some index ∧
      placeholder = namePlaceholder aliases.stem index ∧ later = aliases) ∨
    aliases.segments.idxOf? segment = none ∧
      placeholder = namePlaceholder aliases.stem aliases.segments.length ∧
      later = aliases.withSegment segment := by
  unfold name StateT.run at hrun
  dsimp only at hrun
  split at hrun
  · rename_i index hindex
    cases hrun
    exact .inl ⟨index, hindex, rfl, rfl⟩
  · rename_i hnew
    cases hrun
    exact .inr ⟨hnew, rfl, rfl⟩

theorem stem_of_run_name (hrun : (name segment).run aliases = (placeholder, later)) :
    later.stem = aliases.stem := by
  rcases run_name hrun with ⟨_, _, _, rfl⟩ | ⟨_, _, rfl⟩ <;> rfl

theorem lexes_of_run_name (hstem : IsStem aliases.stem)
    (hrun : (name segment).run aliases = (placeholder, later)) :
    Lexes placeholder [.name placeholder] := by
  rcases run_name hrun with ⟨index, _, rfl, _⟩ | ⟨_, rfl, _⟩ <;>
    exact lexes_namePlaceholder hstem _

theorem HandsOut.stem {handouts : List Handout} (hhands : aliases.HandsOut handouts later) :
    later.stem = aliases.stem := by
  induction hhands with
  | nothing => rfl
  | name hname _ ih => exact ih.trans (stem_of_run_name hname)
  | value hvalue _ ih =>
    cases hvalue
    exact ih

theorem HandsOut.append {first second : List Handout} (hfirst : aliases.HandsOut first between)
    (hsecond : between.HandsOut second later) : aliases.HandsOut (first ++ second) later := by
  induction hfirst with
  | nothing => exact hsecond
  | name hname _ ih => exact .name hname (ih hsecond)
  | value hvalue _ ih => exact .value hvalue (ih hsecond)

end Aliases

/-! ### Texts made of placeholders -/

def Token.isPlaceholder : Token → Bool
  | .name _ | .value _ => true
  | _ => false

/-- A text whose placeholders are all among given ones. -/
def MadeOf (given : List Token) (text : String) : Prop :=
  ∃ tokens, Lexes text tokens ∧ ∀ token ∈ tokens, token.isPlaceholder = true → token ∈ given

/-- A text that has tokens and no placeholders among them. -/
def isFixed (text : String) : Bool :=
  match scan [] text.toList with
  | .ok tokens => tokens.all fun token => !token.isPlaceholder
  | .error _ => false

/-- A fixed text that may stand between any two others. -/
def isSeparator (text : String) : Bool :=
  isFixed text && startsWithBreak text && endsWithBreak text

namespace MadeOf

variable {given more : List Token} {text left right separator opening : String}

theorem mono (hmade : MadeOf given text) (hmore : given ⊆ more) : MadeOf more text := by
  obtain ⟨tokens, hlexes, hgiven⟩ := hmade
  exact ⟨tokens, hlexes, fun token hmem hholder => hmore (hgiven token hmem hholder)⟩

theorem fixed (hfixed : isFixed text = true) : MadeOf given text := by
  unfold isFixed at hfixed
  split at hfixed
  · rename_i tokens hscan
    refine ⟨tokens, hscan, fun token hmem hholder => ?_⟩
    have hplain := List.all_eq_true.mp hfixed token hmem
    rw [hholder] at hplain
    cases hplain
  · cases hfixed

theorem of_append {tokens others : List Token} (hlexes : Lexes text (tokens ++ others))
    (htokens : ∀ token ∈ tokens, token.isPlaceholder = true → token ∈ given)
    (hothers : ∀ token ∈ others, token.isPlaceholder = true → token ∈ given) :
    MadeOf given text :=
  ⟨_, hlexes, fun token hmem => (List.mem_append.mp hmem).elim (htokens token) (hothers token)⟩

theorem append_of_starts (hleft : MadeOf given left) (hright : MadeOf given right)
    (hbreak : startsWithBreak right = true) : MadeOf given (left ++ right) := by
  obtain ⟨leftTokens, hleftLexes, hleftGiven⟩ := hleft
  obtain ⟨rightTokens, hrightLexes, hrightGiven⟩ := hright
  exact .of_append (hleftLexes.append_of_starts hrightLexes hbreak) hleftGiven hrightGiven

theorem opened (hfixed : isFixed opening = true) (hbreak : endsWithBreak opening = true)
    (hmade : MadeOf given text) : MadeOf given (opening ++ text) := by
  obtain ⟨openingTokens, hopening, hopeningGiven⟩ : MadeOf given opening := .fixed hfixed
  obtain ⟨tokens, hlexes, hgiven⟩ := hmade
  exact .of_append (hopening.append_of_ends hlexes hbreak) hopeningGiven hgiven

theorem closed (hmade : MadeOf given text) : MadeOf given (text ++ ")") :=
  hmade.append_of_starts (.fixed (by cbv)) (by decide)

theorem between (hseparator : isSeparator separator = true) (hleft : MadeOf given left)
    (hright : MadeOf given right) : MadeOf given (left ++ separator ++ right) := by
  simp only [isSeparator, Bool.and_eq_true] at hseparator
  obtain ⟨⟨hfixed, hstarts⟩, hends⟩ := hseparator
  rw [String.append_assoc]
  refine hleft.append_of_starts (hright.opened hfixed hends) ?_
  -- A separator is not empty, so its first character is that of the whole.
  unfold startsWithBreak at hstarts ⊢
  rw [String.toList_append]
  cases hcharacters : separator.toList with
  | nil => simp [hcharacters] at hstarts
  | cons character rest =>
    rw [hcharacters] at hstarts
    exact hstarts

theorem intercalate (hseparator : isSeparator separator = true) {texts : List String}
    (htexts : ∀ text ∈ texts, MadeOf given text) : MadeOf given (separator.intercalate texts) := by
  induction texts with
  | nil => exact .fixed (by cbv)
  | cons text rest ih =>
    obtain ⟨htext, hrest⟩ := List.forall_mem_cons.mp htexts
    cases rest with
    | nil =>
      rw [String.intercalate_singleton]
      exact htext
    | cons next others =>
      rw [String.intercalate_cons_cons]
      exact .between hseparator htext (ih hrest)

theorem comparator (operator : Comparator) : MadeOf given operator.text := by
  cases operator <;> exact .fixed (by cbv)

end MadeOf

/-! ### What computations on placeholders take -/

/-- Whenever the computation succeeds, it was handed out placeholders, and its result has a property
of every collection of tokens that holds these placeholders. -/
def Rendering.Takes {α : Type} (computation : Rendering α) (property : List Token → α → Prop) :
    Prop :=
  ∀ ⦃aliases result later⦄, IsStem aliases.stem →
    computation.run.run aliases = (.ok result, later) →
    ∃ handouts, aliases.HandsOut handouts later ∧
      ∀ given, handouts.map Handout.token ⊆ given → property given result

namespace Rendering.Takes

variable {α β : Type} {property : List Token → α → Prop} {final : List Token → β → Prop}

theorem bind {computation : Rendering α} {next : α → Rendering β}
    (hfirst : computation.Takes property)
    (hnext : ∀ middle, (next middle).Takes fun given result =>
      property given middle → final given result) :
    Rendering.Takes (computation >>= next) final := by
  intro aliases result later hstem hrun
  obtain ⟨middle, between, hfirstRun, hnextRun⟩ := run_bind_ok hrun
  obtain ⟨first, hfirstHands, hmiddle⟩ := hfirst hstem hfirstRun
  obtain ⟨second, hsecondHands, hresult⟩ := hnext middle (hfirstHands.stem.symm ▸ hstem) hnextRun
  refine ⟨first ++ second, hfirstHands.append hsecondHands, fun given hgiven => ?_⟩
  rw [List.map_append, List.append_subset] at hgiven
  exact hresult given hgiven.2 (hmiddle given hgiven.1)

theorem pure {value : α} (hvalue : ∀ given, property given value) :
    Rendering.Takes (Pure.pure value) property := by
  intro aliases result later _ hrun
  obtain ⟨rfl, rfl⟩ := run_pure_ok hrun
  exact ⟨[], .nothing _, fun given _ => hvalue given⟩

theorem mono {computation : Rendering α} {other : List Token → α → Prop}
    (htakes : computation.Takes property)
    (himplies : ∀ given result, property given result → other given result) :
    computation.Takes other := by
  intro aliases result later hstem hrun
  obtain ⟨handouts, hhands, hresult⟩ := htakes hstem hrun
  exact ⟨handouts, hhands, fun given hgiven => himplies _ _ (hresult given hgiven)⟩

theorem bind_except {outcome : Except Error α} {next : α → Rendering β}
    (hnext : ∀ value, (next value).Takes final) :
    Rendering.Takes (liftM outcome >>= next) final := by
  intro aliases result later hstem hrun
  obtain ⟨value, _, hrest⟩ := run_except_bind_ok hrun
  exact hnext value hstem hrest

theorem throw (error : Error) :
    Rendering.Takes (MonadExcept.throw error : Rendering α) property := by
  intro aliases result later _ hrun
  cases hrun

theorem mapM {items : List α} {step : α → Rendering β}
    (hstep : ∀ item, (step item).Takes final) :
    Rendering.Takes (items.mapM step) fun given results =>
      ∀ result ∈ results, final given result := by
  induction items with
  | nil => exact .pure fun _ => List.forall_mem_nil _
  | cons item rest ih =>
    rw [List.mapM_cons]
    refine .bind (hstep item) fun result => .bind ih fun results => .pure ?_
    intro given hresults hresult
    exact List.forall_mem_cons.mpr ⟨hresult, hresults⟩

end Rendering.Takes

theorem takes_name (segment : String) :
    Rendering.Takes (liftM (Aliases.name segment)) MadeOf := by
  intro aliases placeholder later hstem hrun
  have hname := run_lift_ok hrun
  refine ⟨[.name segment placeholder], .name hname (.nothing _), fun given hgiven => ?_⟩
  refine ⟨_, Aliases.lexes_of_run_name hstem hname, fun token hmem _ => ?_⟩
  exact hgiven hmem

theorem takes_value (value : Attribute) :
    Rendering.Takes (liftM (Aliases.value value)) MadeOf := by
  intro aliases placeholder later hstem hrun
  have hvalue := run_lift_ok hrun
  refine ⟨[.value value placeholder], .value hvalue (.nothing _), fun given hgiven => ?_⟩
  cases hvalue
  exact ⟨_, lexes_valuePlaceholder hstem _, fun token hmem _ => hgiven hmem⟩

theorem takes_path (segments : List String) :
    Rendering.Takes (liftM (Aliases.path segments)) MadeOf := by
  have hnames : Rendering.Takes (liftM (segments.mapM Aliases.name)) fun given texts =>
      ∀ text ∈ texts, MadeOf given text := by
    induction segments with
    | nil => exact .pure fun _ => List.forall_mem_nil _
    | cons segment rest ih =>
      rw [List.mapM_cons, liftM_bind]
      refine .bind (takes_name segment) fun text => ?_
      rw [liftM_bind]
      refine .bind ih fun texts => .pure ?_
      intro given htexts htext
      exact List.forall_mem_cons.mpr ⟨htext, htexts⟩
  unfold Aliases.path
  rw [liftM_bind]
  exact .bind hnames fun texts => .pure fun given htexts => .intercalate (by cbv) htexts

/-! ### Conditions -/

/-- A test adds to the placeholders of its path those of its values. -/
theorem Test.takes_render (test : Test) (path : String) :
    (test.render path).Takes fun given text => MadeOf given path → MadeOf given text := by
  cases test with
  | «exists» | absent => exact .pure fun _ hpath => (hpath.opened (by cbv) (by decide)).closed
  | compare operator value =>
    refine .bind (takes_value value.bound) fun text => .pure fun given htext hpath => ?_
    exact .between (by cbv) (.between (by cbv) hpath (.comparator operator)) htext
  | beginsWith start =>
    refine .bind (takes_value (.string start)) fun text => .pure fun given htext hpath => ?_
    exact (MadeOf.between (by cbv) (hpath.opened (by cbv) (by decide)) htext).closed
  | between low high =>
    refine .bind (takes_value low.bound) fun lowText => .bind (takes_value high.bound) fun highText =>
      .pure fun given hhigh hlow hpath => ?_
    exact .between (by cbv) (.between (by cbv) hpath hlow) hhigh
  | contains value | lacks value =>
    refine .bind (takes_value value.bound) fun text => .pure fun given htext hpath => ?_
    exact (MadeOf.between (by cbv) (hpath.opened (by cbv) (by decide)) htext).closed
  | among candidates =>
    unfold Test.render
    cases candidates with
    | nil => exact .throw _
    | cons candidate rest =>
      refine .bind (.mapM fun candidate => takes_value candidate.bound) fun texts =>
        .pure fun given htexts hpath => ?_
      exact (MadeOf.between (by cbv) hpath (.intercalate (by cbv) htexts)).closed
  | size operator count =>
    refine .bind (takes_value _) fun text => .pure fun given htext hpath => ?_
    exact .between (by cbv) (.between (by cbv) (hpath.opened (by cbv) (by decide))
      (.comparator operator)) htext

theorem MadeOf.group {given : List Token} {text : String} (hmade : MadeOf given text) :
    MadeOf given ("(" ++ text ++ ")") :=
  (hmade.opened (by cbv) (by decide)).closed

mutual

theorem takes_render (table : TableSchema) : ∀ condition : Condition,
    (condition.render table).Takes MadeOf
  | .leaf path test => by
    unfold Condition.render
    refine .bind_except fun segments => .bind (takes_path segments) fun text => ?_
    exact (Test.takes_render test text).mono fun _ _ => id
  | .all [] | .any [] => .throw _
  | .all (member :: rest) | .any (member :: rest) => by
    unfold Condition.render
    refine .bind (takes_renderMembers table (member :: rest)) fun texts => .pure ?_
    exact fun given htexts => .intercalate (by cbv) htexts
  | .not condition => by
    unfold Condition.render
    refine .bind (takes_render table condition) fun text => .pure fun given htext => ?_
    exact (htext.opened (by cbv) (by decide)).closed

theorem takes_renderMembers (table : TableSchema) : ∀ members : List Condition,
    (Condition.renderMembers table members).Takes fun given texts =>
      ∀ text ∈ texts, MadeOf given text
  | [] => by
    unfold Condition.renderMembers
    exact .pure fun _ => List.forall_mem_nil _
  | member :: rest => by
    unfold Condition.renderMembers
    refine .bind (takes_render table member) fun text => ?_
    refine .bind (takes_renderMembers table rest) fun texts => .pure fun given hrest hmember => ?_
    refine List.forall_mem_cons.mpr ⟨?_, hrest⟩
    split
    · exact hmember.group
    · exact hmember

end

theorem takes_renderTop (table : TableSchema) (condition : Condition) :
    (condition.renderTop table).Takes MadeOf := by
  unfold Condition.renderTop
  refine .bind (takes_render table condition) fun text => ?_
  split
  · refine .pure fun given htext => ?_
    split
    · exact htext.group
    · exact htext
  · exact .pure fun _ => id

/-! ### What steps of building take -/

/-- All texts that a builder holds. -/
def Builder.texts (builder : Builder) : List String :=
  builder.set ++ builder.remove ++ builder.add ++ builder.delete ++ builder.conditions ++
    builder.keyConditions ++ builder.projection

/-- Whenever the computation succeeds, its builder was handed out placeholders, and the texts that
were added are made of them. -/
def Building.Takes {α : Type} (computation : Building α) : Prop :=
  ∀ ⦃builder result later⦄, IsStem builder.aliases.stem →
    computation.run.run builder = (.ok result, later) →
    later.children = builder.children ∧
      ∃ handouts, builder.aliases.HandsOut handouts later.aliases ∧
        ∀ text ∈ later.texts, text ∈ builder.texts ∨ MadeOf (handouts.map Handout.token) text

namespace Building.Takes

variable {α β : Type}

theorem bind {computation : Building α} {next : α → Building β} (hfirst : computation.Takes)
    (hnext : ∀ middle, (next middle).Takes) : Building.Takes (computation >>= next) := by
  intro builder result later hstem hrun
  obtain ⟨middle, between, hfirstRun, hnextRun⟩ := run_bind_ok hrun
  obtain ⟨hchildren, first, hfirstHands, hfirstTexts⟩ := hfirst hstem hfirstRun
  obtain ⟨hchildrenLater, second, hsecondHands, hsecondTexts⟩ :=
    hnext middle (hfirstHands.stem.symm ▸ hstem) hnextRun
  refine ⟨hchildrenLater.trans hchildren, first ++ second, hfirstHands.append hsecondHands, ?_⟩
  intro text hmem
  rw [List.map_append]
  rcases hsecondTexts text hmem with hbetween | hmade
  · exact (hfirstTexts text hbetween).imp_right fun hmade =>
      hmade.mono (List.subset_append_left _ _)
  · exact .inr (hmade.mono (List.subset_append_right _ _))

theorem pure (value : α) : Building.Takes (Pure.pure value) := by
  intro builder result later _ hrun
  obtain ⟨rfl, rfl⟩ := run_pure_ok hrun
  exact ⟨rfl, [], .nothing _, fun _ => .inl⟩

theorem throw (error : Error) : Building.Takes (MonadExcept.throw error : Building α) := by
  intro builder result later _ hrun
  cases hrun

theorem bind_except {outcome : Except Error α} {next : α → Building β}
    (hnext : ∀ value, (next value).Takes) : Building.Takes (liftM outcome >>= next) := by
  intro builder result later hstem hrun
  obtain ⟨value, _, hrest⟩ := run_except_bind_ok hrun
  exact hnext value hstem hrest

theorem forM {items : List α} {step : α → Building Unit} (hstep : ∀ item, (step item).Takes) :
    Building.Takes (items.forM step) := by
  induction items with
  | nil => exact .pure _
  | cons item rest ih => exact .bind (hstep item) fun _ => ih

/-- A step that renders a text and keeps it. -/
theorem render {rendering : Rendering String} (hrender : rendering.Takes MadeOf)
    {keep : String → Builder → Builder}
    (haliases : ∀ text builder, (keep text builder).aliases = builder.aliases)
    (hchildren : ∀ text builder, (keep text builder).children = builder.children)
    (htexts : ∀ text builder, ∀ other ∈ (keep text builder).texts,
      other ∈ builder.texts ∨ other = text) :
    Building.Takes (Builder.withAliases rendering >>= fun text => modify (keep text)) := by
  intro builder result later hstem hrun
  obtain ⟨text, between, hrendering, hmodify⟩ := run_bind_ok hrun
  obtain ⟨aliases, hrenderRun, rfl⟩ := Builder.run_withAliases_ok hrendering
  obtain ⟨handouts, hhands, hmade⟩ := hrender hstem hrenderRun
  cases hmodify
  refine ⟨hchildren _ _, handouts, ?_, fun other hother => ?_⟩
  · rw [haliases]
    exact hhands
  · refine (htexts text _ other hother).imp_right ?_
    rintro rfl
    exact hmade _ (List.Subset.refl _)

end Building.Takes

namespace Builder

variable (table : TableSchema) (path : List String)

theorem takes_addSet {rendering : Rendering String} (hrender : rendering.Takes MadeOf) :
    Building.Takes (withAliases rendering >>= addSet) := by
  refine .render hrender (fun _ _ => rfl) (fun _ _ => rfl) ?_
  simp only [texts, List.mem_append, List.mem_singleton]
  tauto

theorem takes_addAdd {rendering : Rendering String} (hrender : rendering.Takes MadeOf) :
    Building.Takes (withAliases rendering >>= addAdd) := by
  refine .render hrender (fun _ _ => rfl) (fun _ _ => rfl) ?_
  simp only [texts, List.mem_append, List.mem_singleton]
  tauto

theorem takes_addDelete {rendering : Rendering String} (hrender : rendering.Takes MadeOf) :
    Building.Takes (withAliases rendering >>= addDelete) := by
  refine .render hrender (fun _ _ => rfl) (fun _ _ => rfl) ?_
  simp only [texts, List.mem_append, List.mem_singleton]
  tauto

theorem takes_addCondition {rendering : Rendering String} (hrender : rendering.Takes MadeOf) :
    Building.Takes (withAliases rendering >>= addCondition) := by
  refine .render hrender (fun _ _ => rfl) (fun _ _ => rfl) ?_
  simp only [texts, List.mem_append, List.mem_singleton]
  tauto

/-! #### Update clauses -/

/-- A path and the placeholder of a value with a separator between them. -/
theorem takes_pair {separator : String} (hseparator : isSeparator separator = true)
    (value : Attribute) :
    Rendering.Takes (do
      let place ← Aliases.path path
      let text ← Aliases.value value
      return place ++ separator ++ text) MadeOf :=
  .bind (takes_path path) fun _ => .bind (takes_value value) fun _ =>
    .pure fun _ htext hplace => .between hseparator hplace htext

theorem takes_setAttribute (value : Attribute) : (setAttribute path value).Takes :=
  takes_addSet (takes_pair path (by cbv) value)

theorem takes_removePath : (removePath path).Takes := by
  refine .render (takes_path path) (fun _ _ => rfl) (fun _ _ => rfl) ?_
  simp only [texts, List.mem_append, List.mem_singleton]
  tauto

theorem takes_setValue (type : ValueType) (value : Value) :
    (setValue table path type value).Takes :=
  .bind_except (takes_setAttribute path)

theorem takes_setField (field : FieldSchema) (value : Value) :
    (setField table path field value).Takes := by
  unfold setField
  split
  · exact takes_removePath path
  · exact .bind_except (takes_setAttribute path)

theorem takes_incrementNested (amount zero : Attribute) :
    Rendering.Takes (do
      let place ← Aliases.path path
      let amount ← Aliases.value amount
      let zero ← Aliases.value zero
      return place ++ " = if_not_exists(" ++ place ++ ", " ++ zero ++ ") + " ++ amount) MadeOf := by
  refine .bind (takes_path path) fun place => .bind (takes_value amount) fun amountText =>
    .bind (takes_value zero) fun zeroText => .pure fun given hzero hamount hplace => ?_
  exact .between (by cbv) (.between (by cbv) (.between (by cbv) hplace hplace) hzero) hamount

theorem takes_increment (amount : Number) (element : ElementType) :
    (increment path amount element).Takes := by
  unfold increment
  cases element.isNumeric with
  | false => exact .throw _
  | true =>
    by_cases hlength : path.length = 1
    · simp only [if_pos hlength]
      exact takes_addAdd (takes_pair path (by cbv) _)
    · simp only [if_neg hlength]
      exact takes_addSet (takes_incrementNested path _ _)

theorem takes_appendEncoded (empty items : Attribute) :
    Rendering.Takes (do
      let place ← Aliases.path path
      let empty ← Aliases.value empty
      let items ← Aliases.value items
      return place ++ " = list_append(if_not_exists(" ++ place ++ ", " ++ empty ++ "), " ++
        items ++ ")") MadeOf := by
  refine .bind (takes_path path) fun place => .bind (takes_value empty) fun emptyText =>
    .bind (takes_value items) fun itemsText => .pure fun given hitems hempty hplace => ?_
  exact (MadeOf.between (by cbv)
    (.between (by cbv) (.between (by cbv) hplace hplace) hempty) hitems).closed

theorem takes_append (type : ValueType) (items : List Value) :
    (append table path type items).Takes := by
  unfold append
  split
  · exact .bind_except fun encoded => takes_addSet (takes_appendEncoded path _ encoded)
  · exact .pure _

theorem takes_addElements (type : ValueType) (elements : List Value) :
    (addElements table path type elements).Takes := by
  unfold addElements
  split
  · exact .bind_except fun encoded => takes_addAdd (takes_pair path (by cbv) encoded)
  · exact .pure _

theorem takes_deleteElements (type : ValueType) (elements : List Value) :
    (deleteElements table path type elements).Takes := by
  unfold deleteElements
  split
  · exact .bind_except fun encoded => takes_addDelete (takes_pair path (by cbv) encoded)
  · exact .pure _

theorem takes_mergeMap (element : ElementType) (delta : MapDelta) :
    (mergeMap table path element delta).Takes := by
  refine .bind (.forM fun entry => ?_) fun _ => .bind (.forM fun entry => ?_) fun _ =>
    .forM fun name => takes_removePath _
  · dsimp only
    split
    · exact .pure _
    · exact takes_setValue table _ _ _
  · dsimp only
    split
    · exact .pure _
    · exact takes_increment _ _ _

theorem takes_mergeCollection (type : ValueType) (base : Value) (delta : CollectionDelta) :
    (mergeCollection table path type base delta).Takes := by
  unfold mergeCollection
  split
  · refine .bind_except fun element => .bind_except fun merged => ?_
    split
    · exact takes_setValue table path type merged
    · cases delta with
      | map delta => exact takes_mergeMap table path element delta
      | set delta =>
        dsimp only
        split
        · exact takes_setValue table path type merged
        · exact .bind (takes_addElements table path type delta.adds) fun _ =>
            takes_deleteElements table path type delta.deletes
      | list delta => exact takes_append table path type delta.appends
  · exact .pure _

/-! #### Conditions and projections -/

theorem takes_requireCondition (condition : Condition) :
    (requireCondition table condition).Takes :=
  takes_addCondition (takes_renderTop table condition)

theorem takes_requireKey (test : Test) : (requireKey path test).Takes := by
  unfold requireKey
  cases test.isKeyTest with
  | false => exact .throw _
  | true =>
    have hrender : Rendering.Takes (Aliases.path path >>= fun place => test.render place) MadeOf :=
      .bind (takes_path path) fun place => Test.takes_render test place
    have hkeeps : Building.Takes (withAliases (Aliases.path path >>= fun place =>
        test.render place) >>= fun clause => modify fun builder : Builder =>
          { builder with keyConditions := builder.keyConditions ++ [clause] }) := by
      refine .render hrender (fun _ _ => rfl) (fun _ _ => rfl) ?_
      simp only [texts, List.mem_append, List.mem_singleton]
      tauto
    rw [← withAliases_bind, bind_assoc] at hkeeps
    exact hkeeps

theorem takes_requireEqual (value : Attribute) : (requireEqual path value).Takes :=
  takes_addCondition (takes_pair path (by cbv) value)

theorem takes_absent :
    Rendering.Takes (do
      let place ← Aliases.path path
      return "attribute_not_exists(" ++ place ++ ")") MadeOf :=
  .bind (takes_path path) fun _ => .pure fun _ hplace =>
    (hplace.opened (by cbv) (by decide)).closed

theorem takes_requireAbsent : (requireAbsent path).Takes :=
  takes_addCondition (takes_absent path)

theorem takes_absentOrLess (value : Attribute) :
    Rendering.Takes (do
      let place ← Aliases.path path
      let value ← Aliases.value value
      return "(attribute_not_exists(" ++ place ++ ") OR " ++ place ++ " < " ++ value ++ ")")
      MadeOf := by
  refine .bind (takes_path path) fun place => .bind (takes_value value) fun text =>
    .pure fun given htext hplace => ?_
  exact (MadeOf.between (by cbv)
    (.between (by cbv) (hplace.opened (by cbv) (by decide)) hplace) htext).closed

theorem takes_requireAbsentOrLess (value : Attribute) :
    (requireAbsentOrLess path value).Takes :=
  takes_addCondition (takes_absentOrLess path value)

theorem takes_project : (project path).Takes := by
  refine .render (takes_path path) (fun _ _ => rfl) (fun _ _ => rfl) ?_
  simp only [texts, List.mem_append, mem_addPath]
  tauto

end Builder

/-! ### Calls -/

/-- A call that adds to a request: an update clause, a condition or a path to read. -/
inductive BuilderCall where
  | clause (call : ClauseCall)
  | condition (condition : Condition)
  | key (path : List String) (test : Test)
  | equal (path : List String) (value : Attribute)
  | absent (path : List String)
  | absentOrLess (path : List String) (value : Attribute)
  | project (path : List String)

namespace BuilderCall

def perform (table : TableSchema) : BuilderCall → Building Unit
  | .clause call => call.perform table
  | .condition required => Builder.requireCondition table required
  | .key path test => Builder.requireKey path test
  | .equal path value => Builder.requireEqual path value
  | .absent path => Builder.requireAbsent path
  | .absentOrLess path value => Builder.requireAbsentOrLess path value
  | .project path => Builder.project path

end BuilderCall

theorem ClauseCall.takes_perform (table : TableSchema) (call : ClauseCall) :
    (call.perform table).Takes := by
  cases call with
  | setAttribute path value => exact Builder.takes_setAttribute path value
  | setValue path type value => exact Builder.takes_setValue table path type value
  | setField path field value => exact Builder.takes_setField table path field value
  | removePath path => exact Builder.takes_removePath path
  | increment path amount element => exact Builder.takes_increment path amount element
  | append path type items => exact Builder.takes_append table path type items
  | addElements path type elements => exact Builder.takes_addElements table path type elements
  | deleteElements path type elements =>
    exact Builder.takes_deleteElements table path type elements
  | mergeCollection path type base delta =>
    exact Builder.takes_mergeCollection table path type base delta

theorem BuilderCall.takes_perform (table : TableSchema) (call : BuilderCall) :
    (call.perform table).Takes := by
  cases call with
  | clause call => exact ClauseCall.takes_perform table call
  | condition condition => exact Builder.takes_requireCondition table condition
  | key path test => exact Builder.takes_requireKey path test
  | equal path value => exact Builder.takes_requireEqual path value
  | absent path => exact Builder.takes_requireAbsent path
  | absentOrLess path value => exact Builder.takes_requireAbsentOrLess path value
  | project path => exact Builder.takes_project path

end Expression

end RecordStore
