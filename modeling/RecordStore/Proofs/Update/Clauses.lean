import RecordStore.Proofs.Expression.Builder
import RecordStore.Update.View

/-!
# The clauses of changes

The clauses that write a pending change, as a function of the change. Compiling the change adds just
these clauses, with those of nested objects in their place, and each of them acts at or below the
path of the changed field.
-/

namespace RecordStore

open Expression (Action Building Builder Clauses Operand)

/-! ### Clauses of whole values -/

namespace Expression.Clauses

/-- The clauses that every element asks for, one after another. -/
def gather {α : Type} (write : α → Except Error Clauses) : List α → Except Error Clauses
  | [] => .ok none
  | item :: rest => do
    let first ← write item
    return first ++ (← gather write rest)

theorem adds_forM {α : Type} (step : α → Building Unit) (write : α → Except Error Clauses)
    (items : List α) (hstep : ∀ item, (step item).Adds fun _ added => write item = .ok added) :
    Building.Adds (items.forM step) fun _ added => gather write items = .ok added := by
  induction items with
  | nil => exact .pure rfl
  | cons item rest ih =>
    change Building.Adds (step item >>= fun _ => rest.forM step) _
    refine .bind (hstep item) fun _ first hfirst => ih.mono fun _ others hothers => ?_
    rw [gather, hfirst, hothers]
    rfl

end Expression.Clauses

open Expression.Clauses (gather)

/-- Sets a value of a declared type. -/
def valueClauses (table : TableSchema) (path : List String) (type : ValueType) (value : Value) :
    Except Error Clauses :=
  (Codec.encode table .plain type value).map fun stored => .ofSet (.set path (.value stored))

/-- Sets the value of a field, or removes the field when there is none. -/
def fieldClauses (table : TableSchema) (path : List String) (field : FieldSchema)
    (value : Value) : Except Error Clauses :=
  if value.isNull then .ok (.ofRemove (.remove path))
  else (Codec.encodeField table field value).map fun stored => .ofSet (.set path (.value stored))

def increaseClauses (path : List String) (amount : Number) (element : ElementType) :
    Except Error Clauses :=
  if element.isNumeric then .ok (Builder.incrementClauses path amount element)
  else .error (.contract (.incrementValue element))

namespace Expression.Builder

variable {path : List String} (table : TableSchema)

theorem adds_setValue (hpath : path ≠ []) (type : ValueType) (value : Value) :
    Building.Adds (setValue table path type value) fun _ added =>
      valueClauses table path type value = .ok added := by
  refine .bind_except fun stored hstored => (adds_setAttribute hpath stored).mono ?_
  intro _ added hadded
  rw [valueClauses, hstored, hadded]
  rfl

theorem adds_setField (hpath : path ≠ []) (field : FieldSchema) (value : Value) :
    Building.Adds (setField table path field value) fun _ added =>
      fieldClauses table path field value = .ok added := by
  unfold setField fieldClauses
  cases value.isNull with
  | true =>
    refine (adds_removePath hpath).mono fun _ added hadded => ?_
    rw [hadded]
    rfl
  | false =>
    refine .bind_except fun stored hstored => (adds_setAttribute hpath stored).mono ?_
    intro _ added hadded
    rw [hstored, hadded]
    rfl

theorem adds_increase (hpath : path ≠ []) (amount : Number) (element : ElementType) :
    Building.Adds (increment path amount element) fun _ added =>
      increaseClauses path amount element = .ok added := by
  refine (adds_increment hpath amount element).mono fun _ added hadded => ?_
  rw [increaseClauses, if_pos hadded.1, hadded.2]

end Expression.Builder

/-! ### Clauses of collections -/

/-- Adds or takes out what is encoded, and nothing when there is nothing to encode. -/
def elementClauses (table : TableSchema) (kind : Kind) (type : ValueType)
    (form : Attribute → Clauses) (elements : List Value) : Except Error Clauses :=
  if elements.isEmpty then .ok .none
  else (Builder.encodeElements table kind type elements).map form

theorem elementClauses_ok {table : TableSchema} {kind : Kind} {type : ValueType}
    {form : Attribute → Clauses} {elements : List Value} {added : Clauses}
    (hadded : (elements = [] ∧ added = .none) ∨
      ∃ encoded, Builder.encodeElements table kind type elements = .ok encoded ∧
        elements ≠ [] ∧ added = form encoded) :
    elementClauses table kind type form elements = .ok added := by
  unfold elementClauses
  rcases hadded with ⟨rfl, rfl⟩ | ⟨encoded, hencoded, hne, rfl⟩
  · rfl
  · rw [if_neg (by simpa using hne), hencoded]
    rfl

namespace MapDelta

variable (table : TableSchema) (path : List String) (element : ElementType) (delta : MapDelta)

def updateClauses (entry : String × Value) : Except Error Clauses :=
  if delta.deletes.contains entry.1 then .ok .none
  else valueClauses table (path ++ [entry.1]) (.scalar element) entry.2

def amountClauses (entry : String × Number) : Except Error Clauses :=
  if Entries.contains delta.updates entry.1 || delta.deletes.contains entry.1 then .ok .none
  else increaseClauses (path ++ [entry.1]) entry.2 element

def deleteClauses (name : String) : Except Error Clauses :=
  .ok (.ofRemove (.remove (path ++ [name])))

/-- The clauses that write each changed entry by itself. -/
def clauses : Except Error Clauses := do
  let updates ← gather (delta.updateClauses table path element) delta.updates
  let amounts ← gather (delta.amountClauses path element) delta.amounts
  let deletes ← gather (deleteClauses path) delta.deletes
  return updates ++ (amounts ++ deletes)

end MapDelta

/-- The clauses that turn a collection into its merge with a delta. -/
def CollectionDelta.clauses (table : TableSchema) (path : List String) (type : ValueType)
    (base : Value) (delta : CollectionDelta) : Except Error Clauses :=
  if delta.isEmpty then .ok .none
  else do
    let element ← type.requireElement
    let merged ← delta.merge base element
    if delta.clears || Builder.isEmptyCollection base then valueClauses table path type merged
    else
      match delta with
      | .map delta => delta.clauses table path element
      | .set delta =>
        if !delta.adds.isEmpty && !delta.deletes.isEmpty then valueClauses table path type merged
        else do
          let adds ← elementClauses table .set type
            (fun encoded => .ofAdd (.add path (.value encoded))) delta.adds
          let deletes ← elementClauses table .set type
            (fun encoded => .ofDelete (.delete path (.value encoded))) delta.deletes
          return adds ++ deletes
      | .list delta =>
        elementClauses table .list type (Builder.appendClauses path) delta.appends

namespace Expression.Builder

variable {path : List String} (table : TableSchema)

theorem adds_mergeMap (element : ElementType) (delta : MapDelta) :
    Building.Adds (mergeMap table path element delta) fun _ added =>
      delta.clauses table path element = .ok added := by
  have hbelow : ∀ name, path ++ [name] ≠ [] := fun name => by simp
  have hupdates := Clauses.adds_forM
    (fun entry => if delta.deletes.contains entry.1 then pure ()
      else setValue table (path ++ [entry.1]) (.scalar element) entry.2)
    (delta.updateClauses table path element) delta.updates fun entry => by
    unfold MapDelta.updateClauses
    split
    · exact .pure rfl
    · exact adds_setValue table (hbelow _) _ _
  have hamounts := Clauses.adds_forM
    (fun entry =>
      if Entries.contains delta.updates entry.1 || delta.deletes.contains entry.1 then pure ()
      else increment (path ++ [entry.1]) entry.2 element)
    (delta.amountClauses path element) delta.amounts fun entry => by
    unfold MapDelta.amountClauses
    split
    · exact .pure rfl
    · exact adds_increase (hbelow _) _ _
  have hdeletes := Clauses.adds_forM (fun name => removePath (path ++ [name]))
    (MapDelta.deleteClauses path) delta.deletes fun name =>
      (adds_removePath (hbelow name)).mono fun _ added hadded => by
        rw [hadded, MapDelta.deleteClauses]
  refine hupdates.bind fun _ updates hupdated => hamounts.bind fun _ amounts hadded =>
    hdeletes.mono fun _ deletes hdeleted => ?_
  rw [MapDelta.clauses, hupdated, hadded, hdeleted]
  rfl

theorem adds_mergeCollection (hpath : path ≠ []) (type : ValueType) (base : Value)
    (delta : CollectionDelta) :
    Building.Adds (mergeCollection table path type base delta) fun _ added =>
      delta.clauses table path type base = .ok added := by
  unfold mergeCollection CollectionDelta.clauses
  cases delta.isEmpty with
  | true => exact .pure rfl
  | false =>
    refine .bind_except fun element helement => .bind_except fun merged hmerged => ?_
    simp only [helement, ok_bind, hmerged]
    by_cases hwhole : (delta.clears || isEmptyCollection base) = true
    · rw [if_pos hwhole, if_pos hwhole]
      exact adds_setValue table hpath type merged
    · rw [if_neg hwhole, if_neg hwhole]
      cases delta with
      | map delta => exact adds_mergeMap table element delta
      | set delta =>
        dsimp only
        split
        · exact adds_setValue table hpath type merged
        · refine .bind (adds_addElements table hpath type delta.adds) fun _ adds hadds =>
            (adds_deleteElements table hpath type delta.deletes).mono fun _ deletes hdeletes => ?_
          rw [elementClauses_ok hadds, elementClauses_ok hdeletes]
          rfl
      | list delta =>
        exact (adds_append table hpath type delta.appends).mono fun _ added hadded =>
          elementClauses_ok hadded

end Expression.Builder

/-! ### Clauses of objects -/

mutual

def FieldMutation.clauses (table : TableSchema) (field : FieldSchema) (path : List String)
    (base : Value) : FieldMutation → Except Error Clauses
  | .scalar delta =>
    if delta.remove then .ok (.ofRemove (.remove path))
    else
      match delta.set, delta.amount with
      | some value, _ => fieldClauses table path field value
      | none, some amount => do
        let element ← field.type.requireElement
        if field.writesRelative then increaseClauses path amount element
        else do
          let latest ← delta.merge base element
          fieldClauses table path field latest
      | none, none => .ok .none
  | .collection delta =>
    if field.writesRelative then delta.clauses table path field.type base
    else do
      let element ← field.type.requireElement
      let latest ← delta.merge base element
      fieldClauses table path field latest
  | .object nested mutations => do
    let type ← table.requireType nested.typeName
    if base.isNull then do
      let record ← viewFields table type nested nested mutations
      fieldClauses table path field record.toValue
    else objectClauses table type nested path mutations

def FieldMutation.objectClauses (table : TableSchema) (type : TypeSchema) (base : Record)
    (path : List String) : List (String × FieldMutation) → Except Error Clauses
  | [] => .ok .none
  | (name, mutation) :: rest => do
    let field ← type.requireField name
    let others ← objectClauses table type base path rest
    if field.persist && !mutation.isEmpty then
      (mutation.clauses table field (path ++ [field.wireName]) ((base.get? name).getD .null)).map
        fun first => first ++ others
    else return others

end

namespace Expression.Builder

theorem Reads.nested {builder later child : Builder} {clauses : Clauses}
    (hreads : builder.Reads clauses) (hrun : Builder.nested.run builder = (child, later)) :
    later.Reads clauses ∧ later.aliases = builder.aliases ∧ child.Reads .none ∧
      later.aliases.IsParentOf child.aliases := by
  cases hrun
  refine ⟨⟨hreads.formed, fun bindings hcover => ?_⟩, rfl,
    reads_empty (hreads.formed.stem.nested _), toString builder.children ++ "_", ?_⟩
  · have hread := hreads.texts bindings hcover
    exact ⟨hread.set, hread.remove, hread.add, hread.delete, hread.conditions, hread.keyConditions,
      hread.projection⟩
  · simp only [Builder.empty, Aliases.empty, String.append_assoc]

end Expression.Builder

/-- The clauses of a nested builder are those of the builder that makes it. -/
theorem adds_buildNested {property : Unit → Clauses → Prop} {clauses : Building Unit}
    (hadds : clauses.Adds property) : (buildNested clauses).Adds property := by
  intro builder before result later hreads hrun
  obtain ⟨child, between, hnested, hrest⟩ := run_bind_ok hrun
  obtain ⟨hbetween, haliases, hchild, hparent⟩ := hreads.nested (run_lift_ok hnested)
  rcases hclauses : clauses.run.run child with ⟨outcome, filled⟩
  rw [hclauses] at hrest
  cases outcome with
  | error error => cases hrest
  | ok done =>
    obtain ⟨added, hadded, hfilled, hstem⟩ := hadds hchild hclauses
    rw [Clauses.none_append] at hfilled
    have hfilledParent : between.aliases.IsParentOf filled.aliases := by
      obtain ⟨tail, htail⟩ := hparent
      exact ⟨tail, hstem.trans htail⟩
    obtain ⟨hlater, hlaterStem⟩ := hbetween.merge hfilled hfilledParent hrest
    exact ⟨added, hadded, hlater, by rw [hlaterStem, haliases]⟩

mutual

/-- Compiling a pending change adds the clauses of the change. -/
theorem FieldMutation.adds_compile (table : TableSchema) (field : FieldSchema)
    {path : List String} (hpath : path ≠ []) (base : Value) :
    (mutation : FieldMutation) → (mutation.compile table field path base).Adds fun _ added =>
      mutation.clauses table field path base = .ok added
  | .scalar delta => by
    unfold compile clauses
    split
    · refine (Builder.adds_removePath hpath).mono fun _ added hadded => ?_
      rw [hadded]
    · cases delta.set with
      | some value => exact Builder.adds_setField table hpath field value
      | none =>
        cases delta.amount with
        | none => exact .pure rfl
        | some amount =>
          refine .bind_except fun element helement => ?_
          simp only [helement, ok_bind]
          split
          · exact Builder.adds_increase hpath amount element
          · refine .bind_except fun latest hlatest => ?_
            simp only [hlatest, ok_bind]
            exact Builder.adds_setField table hpath field latest
  | .collection delta => by
    unfold compile clauses
    split
    · exact Builder.adds_mergeCollection table hpath field.type base delta
    · refine .bind_except fun element helement => .bind_except fun latest hlatest => ?_
      simp only [helement, hlatest, ok_bind]
      exact Builder.adds_setField table hpath field latest
  | .object nested mutations => by
    unfold compile clauses
    refine .bind_except fun type htype => ?_
    simp only [htype, ok_bind]
    split
    · refine .bind_except fun record hrecord => ?_
      simp only [hrecord, ok_bind]
      exact Builder.adds_setField table hpath field record.toValue
    · exact adds_buildNested (adds_compileFields table type nested path mutations)

theorem FieldMutation.adds_compileFields (table : TableSchema) (type : TypeSchema)
    (base : Record) (path : List String) :
    (mutations : List (String × FieldMutation)) →
      (compileFields table type base path mutations).Adds fun _ added =>
        objectClauses table type base path mutations = .ok added
  | [] => .pure rfl
  | (name, mutation) :: rest => by
    unfold compileFields objectClauses
    refine .bind_except fun field hfield => ?_
    simp only [hfield, ok_bind]
    have hrest := adds_compileFields table type base path rest
    split
    · refine (adds_compile table field (by simp) _ mutation).bind fun _ first hfirst =>
        hrest.mono fun _ others hothers => ?_
      rw [hothers, ok_bind, hfirst]
      rfl
    · refine hrest.mono fun _ others hothers => ?_
      rw [hothers]
      rfl

end

end RecordStore
