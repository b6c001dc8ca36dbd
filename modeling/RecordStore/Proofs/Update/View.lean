import RecordStore.Proofs.Update.Log

/-!
# Views of pending changes

The view of an object with changes pending shows what the object shows once the changes are made one
after another, and no key or element is ever pending in two ways.
-/

namespace RecordStore

open Execution (Mirrors)

variable {table : TableSchema}

/-! ### Viewed fields -/

/-- The view of an object differs from its base in the changed fields, which show the value that
their change leaves. -/
structure ViewedAs (table : TableSchema) (type : TypeSchema) (base before : Record)
    (mutations : List (String × FieldMutation)) (viewed : Record) : Prop where
  typeName : viewed.typeName = before.typeName
  revision : viewed.revision = before.revision
  names : (Entries.names viewed.fields).Nodup
  untouched : ∀ name, Entries.find? mutations name = none → viewed.get? name = before.get? name
  touched : ∀ name mutation, Entries.find? mutations name = some mutation →
    ∃ field value, type.field? name = some field ∧
      mutation.latest table field ((base.get? name).getD .null) = .ok value ∧
      viewed.get? name =
        if (field.settled value).isNull then none else some (field.settled value)

theorem viewFields_ok {type : TypeSchema} {base before viewed : Record}
    {mutations : List (String × FieldMutation)} (hdistinct : (Entries.names mutations).Nodup)
    (hnames : (Entries.names before.fields).Nodup)
    (hview : FieldMutation.viewFields table type base before mutations = .ok viewed) :
    ViewedAs table type base before mutations viewed := by
  induction mutations generalizing before with
  | nil =>
    rw [FieldMutation.viewFields] at hview
    cases hview
    exact ⟨rfl, rfl, hnames, fun _ _ => rfl, fun _ _ hfind => nomatch hfind⟩
  | cons entry rest ih =>
    obtain ⟨name, mutation⟩ := entry
    obtain ⟨hfresh, hrest⟩ := List.nodup_cons.mp hdistinct
    rw [FieldMutation.viewFields] at hview
    obtain ⟨field, hfield, hview⟩ := bind_eq_ok_iff.mp hview
    obtain ⟨value, hvalue, hview⟩ := bind_eq_ok_iff.mp hview
    have hviewed := ih hrest (Record.nodup_set hnames name _) hview
    have hnone : Entries.find? rest name = none := by
      by_contra hsome
      exact hfresh (Entries.mem_names_iff.mpr hsome)
    constructor
    case typeName => exact hviewed.typeName
    case revision => exact hviewed.revision
    case names => exact hviewed.names
    case untouched =>
      intro other hother
      rw [Entries.find?_cons] at hother
      split at hother
      · cases hother
      · rename_i hname
        rw [hviewed.untouched other hother, Record.get?_set_of_ne _ _ hname]
    case touched =>
      intro other change hchange
      rw [Entries.find?_cons] at hchange
      split at hchange
      · rename_i hname
        subst hname
        cases hchange
        refine ⟨field, value, TypeSchema.requireField_eq_ok_iff.mp hfield, hvalue, ?_⟩
        rw [hviewed.untouched name hnone, Record.get?_set, if_pos rfl]
      · exact hviewed.touched other change hchange

/-! ### Views of what mirrors -/

theorem Value.Matches.isNull {left right : Value} (hmatches : left.Matches right) :
    left.isNull = right.isNull := by
  cases hmatches <;> rfl

theorem FieldSchema.settled_of_present (field : FieldSchema) {value : Value}
    (hpresent : value.isNull = false) : field.settled value = value := by
  simp [FieldSchema.settled, hpresent]

theorem Record.matches_of_fields {left right : Record} (htype : left.typeName = right.typeName)
    (hrevision : left.revision = right.revision) (hleft : (Entries.names left.fields).Nodup)
    (hright : (Entries.names right.fields).Nodup)
    (hfields : ∀ name, Option.Rel Value.Matches (left.get? name) (right.get? name)) :
    left.Matches right := by
  unfold Record.Matches Record.toValue
  rw [htype, hrevision]
  refine .object hleft hright (fun name => ?_) fun name first second hfirst hsecond => ?_
  · have hname := hfields name
    change left.get? name = none ↔ right.get? name = none
    generalize left.get? name = first at hname ⊢
    generalize right.get? name = second at hname ⊢
    cases hname <;> simp
  · have hname := hfields name
    rw [Record.get?, hfirst, Record.get?, hsecond] at hname
    cases hname
    assumption

mutual

theorem FieldMutation.Leaves.latest {field : FieldSchema} {base held shown value : Value} :
    {mutation : FieldMutation} → mutation.Leaves table field base held shown →
    mutation.latest table field base = .ok value → (field.settled value).Matches shown
  | _, .scalar leaves, hlatest => by
    rw [FieldMutation.latest] at hlatest
    obtain ⟨element, helement, hmerge⟩ := bind_eq_ok_iff.mp hlatest
    cases (leaves.merge helement).symm.trans hmerge
    exact .refl _
  | _, .collection leaves present, hlatest => by
    rw [FieldMutation.latest] at hlatest
    obtain ⟨element, helement, hmerge⟩ := bind_eq_ok_iff.mp hlatest
    have hmatches := leaves.merge present helement hmerge
    rw [field.settled_of_present present,
      field.settled_of_present (hmatches.isNull.trans present)]
    exact hmatches
  | _, .object declared mirrors, hlatest => by
    rw [FieldMutation.latest] at hlatest
    obtain ⟨type, htype, hview⟩ := bind_eq_ok_iff.mp hlatest
    obtain ⟨record, hrecord, hvalue⟩ := bind_eq_ok_iff.mp hview
    cases hvalue
    exact mirrors.view htype hrecord

theorem Execution.Mirrors.view {base record : Record} {type : TypeSchema}
    {mutations : List (String × FieldMutation)} {state : Execution} :
    Mirrors table base mutations state → table.requireType base.typeName = .ok type →
    FieldMutation.viewFields table type base base mutations = .ok record →
    record.Matches state.shown
  | .intro frames touched, htype, hview => by
    have hviewed := viewFields_ok frames.distinct (Execution.names_of_conforms frames.conforms) hview
    refine Record.matches_of_fields (hviewed.typeName.trans frames.shownType.symm)
      (hviewed.revision.trans frames.shownRevision.symm) hviewed.names frames.shownNames ?_
    intro name
    cases hpending : Entries.find? mutations name with
    | none =>
      have hfresh : name ∉ Entries.names mutations :=
        fun hmem => Entries.mem_names_iff.mp hmem hpending
      rw [hviewed.untouched name hpending, frames.shown name hfresh]
      cases base.get? name with
      | none => exact .none
      | some value => exact .some (.refl value)
    | some mutation =>
      obtain ⟨field, value, hfield, hlatest, hget⟩ := hviewed.touched name mutation hpending
      have hdeclared : table.fieldOf? base.typeName name = some field := by
        rw [TableSchema.fieldOf?, TableSchema.requireType_eq_ok_iff.mp htype]
        exact hfield
      have hmatches := (touched name mutation field hpending hdeclared).latest hlatest
      rw [hget]
      have hpresent := frames.shownPresent name
      cases hshown : state.shown.get? name with
      | none =>
        rw [hshown] at hmatches
        rw [hmatches.isNull]
        exact .none
      | some shown =>
        rw [hshown] at hmatches hpresent
        have hnotNull : (field.settled value).isNull = false := by
          rw [hmatches.isNull]
          cases shown <;> first | rfl | exact absurd rfl hpresent
        rw [hnotNull]
        exact .some hmatches

end

/-! ### Changes kept apart -/

mutual

/-- At no depth is a key or an element pending in two ways. -/
def FieldMutation.Apart : FieldMutation → Prop
  | .scalar _ => True
  | .collection delta => delta.Apart
  | .object _ mutations => AllApart mutations

def FieldMutation.AllApart : List (String × FieldMutation) → Prop
  | [] => True
  | (_, mutation) :: rest => mutation.Apart ∧ AllApart rest

end

def ObjectUpdate.Apart (update : ObjectUpdate) : Prop :=
  FieldMutation.AllApart update.mutations

theorem FieldMutation.allApart_iff {mutations : List (String × FieldMutation)} :
    AllApart mutations ↔ ∀ entry ∈ mutations, entry.2.Apart := by
  induction mutations with
  | nil => simp [AllApart]
  | cons entry rest ih => rw [AllApart, ih, List.forall_mem_cons]

mutual

theorem FieldMutation.Leaves.apart {field : FieldSchema} {base held shown : Value} :
    {mutation : FieldMutation} → mutation.Leaves table field base held shown → mutation.Apart
  | _, .scalar _ => trivial
  | _, .collection leaves _ => leaves.apart
  | _, .object _ mirrors => mirrors.apart

theorem Execution.Mirrors.apart {base : Record} {mutations : List (String × FieldMutation)}
    {state : Execution} : Mirrors table base mutations state → FieldMutation.AllApart mutations
  | .intro frames touched => by
    rw [FieldMutation.allApart_iff]
    rintro ⟨name, mutation⟩ hmem
    obtain ⟨field, hfield⟩ :=
      Option.isSome_iff_exists.mp (frames.declared name (List.mem_map_of_mem hmem))
    have hpending := Entries.find?_of_mem frames.distinct hmem
    exact (touched name mutation field hpending hfield).apart

end

/-! ### Sequences of changes -/

/-- Whatever changes succeed one after another, they can be made at once on the values of a
conforming base, and the view of what is pending shows what the fields show then. At no point is a
key or an element pending in two ways, since every beginning of the changes is such a sequence. -/
theorem ObjectUpdate.view_shows_changes {base : Record} {isRoot : Bool}
    {changes : List FieldChange} {update : ObjectUpdate} (hbase : base.Conforms table)
    (hintegral : ∀ change ∈ changes, change.IsIntegral table base.typeName)
    (hrun : (changes.forM (FieldChange.make table)).run.run ⟨base, isRoot, []⟩ =
      (.ok (), update)) :
    update.Apart ∧ ∃ made,
      changes.foldlM (fun state change => change.perform table state) (.start base) = .ok made ∧
      ∀ record, update.view table = .ok record → record.Matches made.shown := by
  obtain ⟨made, hmade, hmirrors, hsame⟩ :=
    FieldChange.makeAll_mirrored (.start hbase) hintegral hrun
  refine ⟨hmirrors.apart, made, hmade, fun record hview => ?_⟩
  obtain ⟨type, htype, hfields⟩ := bind_eq_ok_iff.mp hview
  rw [hsame] at htype hfields
  exact hmirrors.view htype hfields

/-- Players, with the place where they live. -/
def playersTable : TableSchema where
  __ := (default : TableSchema)
  name := "players"
  rootType := "Player"
  types := [
    ⟨"Player", [
      { (default : FieldSchema) with name := "score", type := .scalar .integer },
      { (default : FieldSchema) with name := "badges", type := ⟨.map, some .long⟩ },
      { (default : FieldSchema) with name := "tags", type := ⟨.set, some .string⟩ },
      { (default : FieldSchema) with
        name := "title", type := .scalar .string, default := some (.string "novice"),
        persist := true },
      { (default : FieldSchema) with name := "home", type := .scalar (.object "Place") }]⟩,
    ⟨"Place", [{ (default : FieldSchema) with name := "visits", type := .scalar .long }]⟩]

def player : Record :=
  ⟨"Player", [("score", .number (.integer 10)), ("badges", .map [("gold", .number (.integer 7))]),
    ("tags", .set [.string "old"]), ("title", .string "knight")], 3⟩

/-- Changes that fold into one another. -/
def playerChanges : List FieldChange := [
  ⟨[], "score", .increment (.integer 5)⟩,
  ⟨[], "score", .increment (.integer (-2))⟩,
  ⟨[], "badges", .deleteEntry "gold"⟩,
  ⟨[], "badges", .incrementEntry "gold" (.integer 1)⟩,
  ⟨[], "tags", .deleteElement (.string "old")⟩,
  ⟨[], "tags", .addElement (.string "new")⟩,
  ⟨["home"], "visits", .increment (.integer 1)⟩,
  ⟨[], "title", .remove⟩]

def playerUpdate : ObjectUpdate :=
  ((playerChanges.forM (FieldChange.make playersTable)).run.run ⟨player, true, []⟩).2

theorem player_conforms : player.Conforms playersTable := by
  refine .object (by decide) (by decide) fun name value field hmem hfield => ?_
  simp only [player, List.mem_cons, Prod.mk.injEq, List.not_mem_nil, or_false] at hmem
  rcases hmem with ⟨rfl, rfl⟩ | ⟨rfl, rfl⟩ | ⟨rfl, rfl⟩ | ⟨rfl, rfl⟩ <;> cases hfield
  · exact .number (.inl rfl) 10
  · refine .map (by decide) fun key entry hentry => ?_
    cases List.mem_singleton.mp hentry
    exact .number (.inr rfl) 7
  · refine .set (List.pairwise_singleton _ _) fun tag htag => ?_
    rw [List.mem_singleton.mp htag]
    exact .string "old"
  · exact .string "knight"

theorem ObjectUpdate.view_shows_changes_players : ∃ made record,
    (playerChanges.forM (FieldChange.make playersTable)).run.run ⟨player, true, []⟩ =
      (.ok (), playerUpdate) ∧
    playerChanges.foldlM (fun state change => change.perform playersTable state) (.start player) =
      .ok made ∧
    playerUpdate.view playersTable = .ok record ∧ record.Matches made.shown := by
  have hintegral : ∀ change ∈ playerChanges, change.IsIntegral playersTable player.typeName := by
    intro change hmem field hfield
    simp only [playerChanges, List.mem_cons, List.not_mem_nil, or_false] at hmem
    rcases hmem with rfl | rfl | rfl | rfl | rfl | rfl | rfl | rfl <;> cases hfield
    · rintro element ⟨⟩
      exact .inl rfl
    · rintro element ⟨⟩
      exact .inl rfl
    · trivial
    · rintro element ⟨⟩
      exact .inr rfl
    · exact .string "old"
    · exact .string "new"
    · rintro element ⟨⟩
      exact .inr rfl
    · trivial
  have hrun : (playerChanges.forM (FieldChange.make playersTable)).run.run ⟨player, true, []⟩ =
      (.ok (), playerUpdate) := Prod.ext (by rfl) rfl
  obtain ⟨_, made, hmade, hviews⟩ := view_shows_changes player_conforms hintegral hrun
  have hsome : (playerUpdate.view playersTable).toOption.isSome = true := by decide +kernel
  cases hview : playerUpdate.view playersTable with
  | error error =>
    rw [hview] at hsome
    cases hsome
  | ok record => exact ⟨made, record, hrun, hmade, rfl, hviews record hview⟩

end RecordStore
