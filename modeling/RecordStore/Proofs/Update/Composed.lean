import RecordStore.Proofs.Update.Clauses

/-!
# Requests composed call by call

Every call on a builder registers clauses that depend on what the call is given only, whatever the
builder holds already, and a call that fails registers what came before the failure. Builders that
are composed by such calls, with nested builders merged into them in any order, are read as all that
was registered.
-/

namespace RecordStore

open Expression (Action Building Builder Clauses IsStem)

/-! ### What is registered -/

/-- What a computation registers, and whether it succeeds. -/
structure Registration where
  outcome : Except Error Unit
  clauses : Clauses

namespace Registration

def nothing : Registration := ⟨.ok (), .none⟩

/-- All clauses, or none of them when they cannot be made. -/
def whole : Except Error Clauses → Registration
  | .ok clauses => ⟨.ok (), clauses⟩
  | .error error => ⟨.error error, .none⟩

/-- What follows from a value, when there is one. -/
def given {α : Type} (outcome : Except Error α) (next : α → Registration) : Registration :=
  match outcome with
  | .ok value => next value
  | .error error => ⟨.error error, .none⟩

/-- Another registration follows, unless the first one failed. -/
def andThen (first next : Registration) : Registration :=
  match first.outcome with
  | .ok () => ⟨next.outcome, first.clauses ++ next.clauses⟩
  | .error error => ⟨.error error, first.clauses⟩

/-- One after another until one fails. -/
def inTurn : List (Except Error Clauses) → Registration
  | [] => nothing
  | first :: rest => (whole first).andThen (inTurn rest)

end Registration

def MapDelta.registration (table : TableSchema) (path : List String) (element : ElementType)
    (delta : MapDelta) : Registration :=
  (Registration.inTurn (delta.updates.map (delta.updateClauses table path element))).andThen
    ((Registration.inTurn (delta.amounts.map (delta.amountClauses path element))).andThen
      (Registration.inTurn (delta.deletes.map (MapDelta.deleteClauses path))))

/-- A merged collection is written whole, or by the changes that it needs. -/
def CollectionDelta.registration (table : TableSchema) (path : List String) (type : ValueType)
    (base : Value) (delta : CollectionDelta) : Registration :=
  if delta.isEmpty then .nothing
  else .given type.requireElement fun element => .given (delta.merge base element) fun merged =>
    if delta.clears || Builder.isEmptyCollection base then
      .whole (valueClauses table path type merged)
    else
      match delta with
      | .map delta => delta.registration table path element
      | .set delta =>
        if !delta.adds.isEmpty && !delta.deletes.isEmpty then
          .whole (valueClauses table path type merged)
        else
          (Registration.whole (elementClauses table .set type
            (fun encoded => .ofAdd (.add path (.value encoded))) delta.adds)).andThen
          (Registration.whole (elementClauses table .set type
            (fun encoded => .ofDelete (.delete path (.value encoded))) delta.deletes))
      | .list delta =>
        .whole (elementClauses table .list type (Builder.appendClauses path) delta.appends)

/-- A call that registers update clauses. -/
inductive ClauseCall where
  | setAttribute (path : List String) (value : Attribute)
  | setValue (path : List String) (type : ValueType) (value : Value)
  | setField (path : List String) (field : FieldSchema) (value : Value)
  | removePath (path : List String)
  | increment (path : List String) (amount : Number) (element : ElementType)
  | append (path : List String) (type : ValueType) (items : List Value)
  | addElements (path : List String) (type : ValueType) (elements : List Value)
  | deleteElements (path : List String) (type : ValueType) (elements : List Value)
  | mergeCollection (path : List String) (type : ValueType) (base : Value) (delta : CollectionDelta)

namespace ClauseCall

def path : ClauseCall → List String
  | setAttribute path _ => path
  | setValue path _ _ => path
  | setField path _ _ => path
  | removePath path => path
  | increment path _ _ => path
  | append path _ _ => path
  | addElements path _ _ => path
  | deleteElements path _ _ => path
  | mergeCollection path _ _ _ => path

def perform (table : TableSchema) : ClauseCall → Building Unit
  | setAttribute path value => Builder.setAttribute path value
  | setValue path type value => Builder.setValue table path type value
  | setField path field value => Builder.setField table path field value
  | removePath path => Builder.removePath path
  | increment path amount element => Builder.increment path amount element
  | append path type items => Builder.append table path type items
  | addElements path type elements => Builder.addElements table path type elements
  | deleteElements path type elements => Builder.deleteElements table path type elements
  | mergeCollection path type base delta => Builder.mergeCollection table path type base delta

def registration (table : TableSchema) : ClauseCall → Registration
  | setAttribute path value => .whole (.ok (.ofSet (.set path (.value value))))
  | setValue path type value => .whole (valueClauses table path type value)
  | setField path field value => .whole (fieldClauses table path field value)
  | removePath path => .whole (.ok (.ofRemove (.remove path)))
  | increment path amount element => .whole (increaseClauses path amount element)
  | append path type items =>
    .whole (elementClauses table .list type (Builder.appendClauses path) items)
  | addElements path type elements =>
    .whole (elementClauses table .set type
      (fun encoded => .ofAdd (.add path (.value encoded))) elements)
  | deleteElements path type elements =>
    .whole (elementClauses table .set type
      (fun encoded => .ofDelete (.delete path (.value encoded))) elements)
  | mergeCollection path type base delta => delta.registration table path type base

end ClauseCall

/-! ### What calls register -/

namespace Expression

/-- On every builder the computation ends as its registration does, with the registered clauses
added to those of the builder. -/
def Building.Registers (computation : Building Unit) (registration : Registration) : Prop :=
  ∀ ⦃builder clauses⦄, builder.Reads clauses → ∃ later,
    computation.run.run builder = (registration.outcome, later) ∧
    later.Reads (clauses ++ registration.clauses) ∧ later.aliases.stem = builder.aliases.stem

namespace Building.Registers

variable {computation next : Building Unit} {first second : Registration} {added : Clauses}

theorem nothing : Building.Registers (Pure.pure ()) Registration.nothing := by
  intro builder clauses hreads
  exact ⟨builder, rfl, (Clauses.append_none clauses).symm ▸ hreads, rfl⟩

theorem failing {α : Type} (error : Error) (next : α → Building Unit) :
    Building.Registers (liftM (.error error : Except Error α) >>= next)
      (.whole (.error error)) := by
  intro builder clauses hreads
  exact ⟨builder, rfl, (Clauses.append_none clauses).symm ▸ hreads, rfl⟩

theorem given {α : Type} {outcome : Except Error α} {next : α → Building Unit}
    {registration : α → Registration} (hnext : ∀ value, (next value).Registers (registration value)) :
    Building.Registers (liftM outcome >>= next) (.given outcome registration) := by
  cases outcome with
  | ok value => exact hnext value
  | error error => exact failing error next

/-- A value is made first, of which clauses are written. -/
theorem whole_map {α : Type} {outcome : Except Error α} {next : α → Building Unit}
    {form : α → Clauses} (hnext : ∀ value, (next value).Registers (.whole (.ok (form value)))) :
    Building.Registers (liftM outcome >>= next) (.whole (outcome.map form)) := by
  cases outcome with
  | ok value => exact hnext value
  | error error => exact failing error next

/-- What a computation adds when it succeeds is what it registers if it always does. -/
theorem of_adds (hadds : computation.Adds fun _ clauses => clauses = added)
    (hsucceeds : ∀ builder, ∃ later, computation.run.run builder = (.ok (), later)) :
    computation.Registers (.whole (.ok added)) := by
  intro builder clauses hreads
  obtain ⟨later, hrun⟩ := hsucceeds builder
  obtain ⟨_, rfl, hlater, hstem⟩ := hadds hreads hrun
  exact ⟨later, hrun, hlater, hstem⟩

theorem andThen (hfirst : computation.Registers first) (hsecond : next.Registers second) :
    Building.Registers (computation >>= fun _ => next) (first.andThen second) := by
  intro builder clauses hreads
  obtain ⟨between, hrun, hbetween, hstem⟩ := hfirst hreads
  obtain ⟨outcome, registered⟩ := first
  cases outcome with
  | error error => exact ⟨between, run_bind_of_error hrun, hbetween, hstem⟩
  | ok _ =>
    obtain ⟨later, hrest, hlater, hstemLater⟩ := hsecond hbetween
    refine ⟨later, (run_bind_of_ok hrun).trans hrest, ?_, hstemLater.trans hstem⟩
    rw [Clauses.append_assoc] at hlater
    exact hlater

theorem forM {α : Type} {step : α → Building Unit} {write : α → Except Error Clauses}
    (hstep : ∀ item, (step item).Registers (.whole (write item))) (items : List α) :
    Building.Registers (items.forM step) (.inTurn (items.map write)) := by
  induction items with
  | nil => exact nothing
  | cons item rest ih => exact (hstep item).andThen ih

end Building.Registers

namespace Builder

variable {path : List String} (table : TableSchema)

theorem registers_setAttribute (hpath : path ≠ []) (value : Attribute) :
    Building.Registers (setAttribute path value)
      (.whole (.ok (.ofSet (.set path (.value value))))) :=
  .of_adds (adds_setAttribute hpath value) fun _ => ⟨_, rfl⟩

theorem registers_removePath (hpath : path ≠ []) :
    Building.Registers (removePath path) (.whole (.ok (.ofRemove (.remove path)))) :=
  .of_adds (adds_removePath hpath) fun _ => ⟨_, rfl⟩

theorem registers_setValue (hpath : path ≠ []) (type : ValueType) (value : Value) :
    Building.Registers (setValue table path type value)
      (.whole (valueClauses table path type value)) :=
  .whole_map (registers_setAttribute hpath)

theorem registers_setField (hpath : path ≠ []) (field : FieldSchema) (value : Value) :
    Building.Registers (setField table path field value)
      (.whole (fieldClauses table path field value)) := by
  unfold setField fieldClauses
  split
  · exact registers_removePath hpath
  · exact .whole_map (registers_setAttribute hpath)

theorem registers_increment (hpath : path ≠ []) (amount : Number) (element : ElementType) :
    Building.Registers (increment path amount element)
      (.whole (increaseClauses path amount element)) := by
  cases hnumeric : element.isNumeric with
  | false =>
    unfold increment increaseClauses
    rw [hnumeric]
    exact .failing _ _
  | true =>
    rw [increaseClauses, if_pos hnumeric]
    refine .of_adds ((adds_increment hpath amount element).mono fun _ _ hadded => hadded.2) ?_
    intro builder
    unfold increment
    simp only [hnumeric]
    by_cases hlength : path.length = 1
    · simp only [if_pos hlength]
      exact ⟨_, rfl⟩
    · simp only [if_neg hlength]
      exact ⟨_, rfl⟩

/-- Elements are written as one attribute, when there are any. -/
theorem registers_elements {kind : Kind} {type : ValueType} {form : Attribute → Clauses}
    {write : Attribute → Building Unit}
    (hwrite : ∀ encoded, (write encoded).Registers (.whole (.ok (form encoded))))
    (elements : List Value) :
    Building.Registers
      (if !elements.isEmpty then
        (liftM (encodeElements table kind type elements) : Building Attribute) >>= write
      else pure ())
      (.whole (elementClauses table kind type form elements)) := by
  unfold elementClauses
  cases elements with
  | nil => exact .nothing
  | cons element rest => exact .whole_map hwrite

theorem registers_append (hpath : path ≠ []) (type : ValueType) (items : List Value) :
    Building.Registers (append table path type items)
      (.whole (elementClauses table .list type (appendClauses path) items)) :=
  registers_elements table
    (fun encoded => .of_adds (adds_appendEncoded hpath encoded) fun _ => ⟨_, rfl⟩) items

theorem registers_addElements (hpath : path ≠ []) (type : ValueType) (elements : List Value) :
    Building.Registers (addElements table path type elements)
      (.whole (elementClauses table .set type
        (fun encoded => .ofAdd (.add path (.value encoded))) elements)) :=
  registers_elements table
    (fun encoded => .of_adds (adds_addEncoded hpath encoded) fun _ => ⟨_, rfl⟩) elements

theorem registers_deleteElements (hpath : path ≠ []) (type : ValueType) (elements : List Value) :
    Building.Registers (deleteElements table path type elements)
      (.whole (elementClauses table .set type
        (fun encoded => .ofDelete (.delete path (.value encoded))) elements)) :=
  registers_elements table
    (fun encoded => .of_adds (adds_deleteEncoded hpath encoded) fun _ => ⟨_, rfl⟩) elements

theorem registers_mergeMap (element : ElementType) (delta : MapDelta) :
    Building.Registers (mergeMap table path element delta)
      (delta.registration table path element) := by
  have hbelow : ∀ name, path ++ [name] ≠ [] := fun name => by simp
  refine .andThen (.forM (fun entry => ?_) delta.updates)
    (.andThen (.forM (fun entry => ?_) delta.amounts) (.forM (fun name => ?_) delta.deletes))
  · unfold MapDelta.updateClauses
    dsimp only
    split
    · exact .nothing
    · exact registers_setValue table (hbelow _) _ _
  · unfold MapDelta.amountClauses
    dsimp only
    split
    · exact .nothing
    · exact registers_increment (hbelow _) _ _
  · exact registers_removePath (hbelow name)

theorem registers_mergeCollection (hpath : path ≠ []) (type : ValueType) (base : Value)
    (delta : CollectionDelta) :
    Building.Registers (mergeCollection table path type base delta)
      (delta.registration table path type base) := by
  unfold mergeCollection CollectionDelta.registration
  cases delta.isEmpty with
  | true => exact .nothing
  | false =>
    refine .given fun element => .given fun merged => ?_
    by_cases hwhole : (delta.clears || isEmptyCollection base) = true
    · rw [if_pos hwhole, if_pos hwhole]
      exact registers_setValue table hpath type merged
    · rw [if_neg hwhole, if_neg hwhole]
      cases delta with
      | map delta => exact registers_mergeMap table element delta
      | set delta =>
        dsimp only
        split
        · exact registers_setValue table hpath type merged
        · exact (registers_addElements table hpath type delta.adds).andThen
            (registers_deleteElements table hpath type delta.deletes)
      | list delta => exact registers_append table hpath type delta.appends

end Builder

theorem registers_perform (table : TableSchema) (call : ClauseCall) (hpath : call.path ≠ []) :
    (call.perform table).Registers (call.registration table) := by
  cases call with
  | setAttribute path value => exact Builder.registers_setAttribute hpath value
  | setValue path type value => exact Builder.registers_setValue table hpath type value
  | setField path field value => exact Builder.registers_setField table hpath field value
  | removePath path => exact Builder.registers_removePath hpath
  | increment path amount element => exact Builder.registers_increment hpath amount element
  | append path type items => exact Builder.registers_append table hpath type items
  | addElements path type elements => exact Builder.registers_addElements table hpath type elements
  | deleteElements path type elements =>
    exact Builder.registers_deleteElements table hpath type elements
  | mergeCollection path type base delta =>
    exact Builder.registers_mergeCollection table hpath type base delta

/-! ### Builders with nested builders -/

theorem toNat_lt_of_isAlphanum {character : Char} (hcharacter : character.isAlphanum = true) :
    character.toNat < 128 := by
  simp only [Char.isAlphanum, Char.isAlpha, Char.isUpper, Char.isLower, Char.isDigit,
    Bool.or_eq_true, Bool.and_eq_true, decide_eq_true_eq, ge_iff_le, UInt32.le_iff_toNat_le]
    at hcharacter
  simp at hcharacter
  omega

/-- Letters, digits and underscores make stems. -/
theorem isStem_of_ascii {stem : String}
    (hstem : ∀ character ∈ stem.toList, character = '_' ∨ character.isAlphanum = true) :
    IsStem stem := by
  intro character hmem
  unfold isWordPart Text.isAlphanumeric
  rcases hstem character hmem with rfl | hcharacter
  · rfl
  · rw [if_pos (toNat_lt_of_isAlphanum hcharacter), hcharacter, Bool.or_true]

/-- The stems of the builders that a builder nests, of those that they nest, and so on. -/
inductive Nests (stem : String) : (nested : String) → Prop
  | child (index : Nat) : Nests stem (stem ++ "c" ++ toString index ++ "_")
  | deeper {nested : String} (index : Nat) (hnests : Nests stem nested) :
    Nests stem (nested ++ "c" ++ toString index ++ "_")

/-- A builder that began empty, with the clauses registered since. A builder that it merges is
composed in the same way, from a stem that it nests, whenever that one was made and filled. -/
inductive Composed (table : TableSchema) : (stem : String) → Builder → Clauses → Prop
  | empty (stem : String) : Composed table stem (.empty stem) .none
  | call {stem : String} {builder : Builder} {clauses : Clauses} (call : ClauseCall)
    (hpath : call.path ≠ []) (hbuilder : Composed table stem builder clauses) :
    Composed table stem ((call.perform table).run.run builder).2
      (clauses ++ (call.registration table).clauses)
  | nested {stem : String} {builder : Builder} {clauses : Clauses}
    (hbuilder : Composed table stem builder clauses) :
    Composed table stem (Builder.nested.run builder).2 clauses
  | merge {stem nested : String} {builder other later : Builder} {clauses added : Clauses}
    (hnests : Nests stem nested) (hbuilder : Composed table stem builder clauses)
    (hother : Composed table nested other added)
    (hmerge : (Builder.merge other).run.run builder = (.ok (), later)) :
    Composed table stem later (clauses ++ added)

theorem Nests.isStem {stem nested : String} (hnests : Nests stem nested) (hstem : IsStem stem) :
    IsStem nested := by
  induction hnests with
  | child index => exact hstem.nested index
  | deeper index _ ih => exact ih.nested index

theorem Nests.continues {stem nested : String} (hnests : Nests stem nested) :
    ∃ tail, nested = stem ++ "c" ++ tail := by
  induction hnests with
  | child index => exact ⟨toString index ++ "_", by simp only [String.append_assoc]⟩
  | deeper index _ ih =>
    obtain ⟨tail, rfl⟩ := ih
    exact ⟨tail ++ "c" ++ toString index ++ "_", by simp only [String.append_assoc]⟩

/-- A composed builder says what was registered. -/
theorem Composed.reads {table : TableSchema} {stem : String} {builder : Builder}
    {clauses : Clauses} (hbuilder : Composed table stem builder clauses) (hstem : IsStem stem) :
    builder.Reads clauses ∧ builder.aliases.stem = stem := by
  induction hbuilder with
  | empty stem => exact ⟨Builder.reads_empty hstem, rfl⟩
  | call call hpath _ ih =>
    obtain ⟨hreads, hsame⟩ := ih hstem
    obtain ⟨later, hrun, hlater, hstemLater⟩ := registers_perform table call hpath hreads
    rw [hrun]
    exact ⟨hlater, hstemLater.trans hsame⟩
  | nested _ ih =>
    obtain ⟨hreads, hsame⟩ := ih hstem
    obtain ⟨hlater, haliases, _⟩ := hreads.nested rfl
    exact ⟨hlater, (congrArg Aliases.stem haliases).trans hsame⟩
  | merge hnests _ _ hmerge ih ihOther =>
    obtain ⟨hreads, hsame⟩ := ih hstem
    obtain ⟨hother, hsameOther⟩ := ihOther (hnests.isStem hstem)
    obtain ⟨tail, htail⟩ := hnests.continues
    obtain ⟨hlater, hstemLater⟩ := hreads.merge hother ⟨tail, by rw [hsameOther, hsame, htail]⟩ hmerge
    exact ⟨hlater, hstemLater.trans hsame⟩

/-- The update of a composed builder is read, under the placeholders of the compiled request, as all
actions that were registered: those that set, remove, add and delete one group after another, each
in the order of the calls. -/
theorem Composed.parse_update {table : TableSchema} {stem : String} {builder : Builder}
    {clauses : Clauses} (hbuilder : Composed table stem builder clauses)
    (hstem : ∀ character ∈ stem.toList, character = '_' ∨ character.isAlphanum = true)
    (hupdates : builder.hasUpdates = true) :
    ∃ text, builder.compile.update = some text ∧
      Action.parse builder.compile.bindings text =
        .ok (clauses.set ++ (clauses.remove ++ (clauses.add ++ clauses.delete))) := by
  obtain ⟨hreads, _⟩ := hbuilder.reads (isStem_of_ascii hstem)
  exact hreads.update (hreads.hasUpdates.mp hupdates)

/-- An attribute is set whose name has a blank in it, and a nested builder removes another one. -/
def settingBuilder : Builder :=
  ((Builder.setAttribute ["full name", "first.last"] (.string "Jane")).run.run (.empty "p_")).2

def removingBuilder : Builder :=
  ((Builder.removePath ["set"]).run.run (.empty "p_c0_")).2

def bothBuilder : Builder :=
  ((Builder.merge removingBuilder).run.run (Builder.nested.run settingBuilder).2).2

theorem parse_update_bothBuilder :
    (∀ character ∈ "p_".toList, character = '_' ∨ character.isAlphanum = true) ∧
    bothBuilder.hasUpdates = true ∧
    ∃ text, bothBuilder.compile.update = some text ∧
      Action.parse bothBuilder.compile.bindings text =
        .ok [.set ["full name", "first.last"] (.value (.string "Jane")), .remove ["set"]] := by
  have hsetting : Composed default "p_" settingBuilder (.ofSet _) :=
    .call (.setAttribute ["full name", "first.last"] (.string "Jane")) (by decide) (.empty "p_")
  have hremoving : Composed default "p_c0_" removingBuilder (.ofRemove _) :=
    .call (.removePath ["set"]) (by decide) (.empty "p_c0_")
  have hmerge : (Builder.merge removingBuilder).run.run (Builder.nested.run settingBuilder).2 =
      (.ok (), bothBuilder) := rfl
  have hboth := Composed.merge (.child 0) hsetting.nested hremoving hmerge
  have hstem : ∀ character ∈ "p_".toList, character = '_' ∨ character.isAlphanum = true := by
    simp
  have hupdates : bothBuilder.hasUpdates = true :=
    (hboth.reads (isStem_of_ascii hstem)).1.hasUpdates.mpr (List.cons_ne_nil _ _)
  exact ⟨hstem, hupdates, hboth.parse_update hstem hupdates⟩

end Expression

end RecordStore
