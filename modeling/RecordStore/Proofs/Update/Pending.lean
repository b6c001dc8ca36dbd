import RecordStore.Proofs.Record.Alike
import RecordStore.Proofs.Update.Made

/-!
# What is pending for a field

A relation between what is pending for a field and what the field holds once the same changes are made
at once. One more change to either is the same change to the other.
-/

namespace RecordStore

/-! ### Values up to order -/

/-- Values that differ in nothing but the order of sets, maps and fields. -/
inductive Value.Matches : Value → Value → Prop where
  | refl (value : Value) : Matches value value
  | map {left right : List (String × Value)} (perm : left.Perm right) :
    Matches (.map left) (.map right)
  | set {left right : List Value} (same : Value.set left == .set right) :
    Matches (.set left) (.set right)
  | object {typeName : String} {left right : List (String × Value)} {revision : Int64}
    (leftNames : (Entries.names left).Nodup) (rightNames : (Entries.names right).Nodup)
    (absent : ∀ name, Entries.find? left name = none ↔ Entries.find? right name = none)
    (fields : ∀ name first second, Entries.find? left name = some first →
      Entries.find? right name = some second → Matches first second) :
    Matches (.object typeName left revision) (.object typeName right revision)

def Record.Matches (left right : Record) : Prop :=
  left.toValue.Matches right.toValue

/-! ### Conforming values -/

namespace Conforms

variable {table : TableSchema} {type : ValueType} {element : ElementType} {value : Value}

theorem wellFormed (hvalue : Conforms table type value) : value.WellFormed := by
  induction hvalue with
  | string | boolean | binary | number => constructor
  | object names known _ ih =>
    refine .object names fun name value hmem => ?_
    obtain ⟨field, hfield⟩ :=
      Option.isSome_iff_exists.mp (known name (List.mem_map_of_mem hmem))
    exact ih name value field hmem hfield
  | list _ ih => exact .list ih
  | map names _ ih => exact .map names ih
  | set _ _ ih => exact .set ih
  | undeclared _ formed => exact formed

theorem isNull (hvalue : Conforms table type value) : value.isNull = false := by
  cases hvalue with
  | undeclared present => exact present
  | _ => rfl

theorem isNumber (hvalue : Conforms table (.scalar element) value) (hwhole : element.IsWhole) :
    value.IsNumber := by
  rcases hwhole with rfl | rfl <;> cases hvalue <;> trivial

end Conforms

/-- A field of the type holds the value, or nothing. -/
def MayHold (table : TableSchema) (type : ValueType) (value : Value) : Prop :=
  value = .null ∨ Conforms table type value

theorem MayHold.isNumber {table : TableSchema} {element : ElementType} {value : Value}
    (hholds : MayHold table (.scalar element) value) (hwhole : element.IsWhole) :
    value.IsNumber := by
  rcases hholds with rfl | hconforms
  · trivial
  · exact hconforms.isNumber hwhole

/-! ### Collections -/

/-- The value of a collection with its elements; an absent one has none. -/
inductive Value.Collects {α : Type} (collection : List α → Value) : List α → Value → Prop where
  | absent : Collects collection [] .null
  | present (elements : List α) : Collects collection elements (collection elements)

/-- What a delta that does not clear makes of the entries of a map. -/
def MapDelta.mergeInto (delta : MapDelta) (element : ElementType)
    (entries : List (String × Value)) : Except Error Value := do
  let entries := delta.updates.foldl (fun held entry => Entries.put held entry.1 entry.2) entries
  let entries ← delta.amounts.foldlM (MapDelta.addTo element delta.updates) entries
  return .map (entries.filter fun entry => !delta.deletes.contains entry.1)

theorem MapDelta.merge_of_not_clear {delta : MapDelta} (hclear : delta.clear = false)
    (value : Value) (element : ElementType) :
    delta.merge value element = value.mapEntries >>= delta.mergeInto element := by
  have hbase : delta.baseEntries value = value.mapEntries := by
    cases value <;> simp [MapDelta.baseEntries, Value.mapEntries, hclear]
  rw [MapDelta.merge, hbase]
  rfl

/-- What a delta that does not clear makes of the elements of a set. -/
def SetDelta.mergeInto (delta : SetDelta) (elements : List Value) : List Value :=
  (delta.adds.foldl SetDelta.adjoin elements).filter fun element =>
    !delta.deletes.any fun deleted => deleted == element

theorem SetDelta.merge_of_not_clear {delta : SetDelta} (hclear : delta.clear = false)
    (value : Value) : delta.merge value =
      value.setElements.map fun elements => .set (delta.mergeInto elements) := by
  have hbase : delta.baseElements value = value.setElements := by
    cases value <;> simp [SetDelta.baseElements, Value.setElements, hclear]
  rw [SetDelta.merge, hbase]
  rfl

namespace CollectionDelta

/-- No key or element is changed in two ways at once. -/
def Apart : CollectionDelta → Prop
  | .map delta => delta.Apart
  | .set delta => delta.Apart
  | .list _ => True

/-- What a field holds of a collection once its delta is merged, up to order. A field whose type
declares no element cannot be read, so that nothing is said of it. -/
inductive Leaves (type : ValueType) (base : Value) : CollectionDelta → Value → Prop where
  | map {delta : MapDelta} {element : ElementType} {entries left : List (String × Value)}
    {held : Value} (declared : type = ⟨.map, some element⟩)
    (whole : delta.baseEntries base = .ok entries) (names : (Entries.names entries).Nodup)
    (numbers : element.IsWhole → ∀ key value, Entries.find? entries key = some value →
      value.IsNumber)
    (holds : Value.Collects .map left held) (leaves : delta.Leaves element entries left) :
    Leaves type base (.map delta) held
  | set {delta : SetDelta} {elements left : List Value} {held : Value} (kind : type.kind = .set)
    (whole : delta.baseElements base = .ok elements)
    (values : ∀ element ∈ elements, element.WellFormed) (distinct : Value.Distinct elements)
    (holds : Value.Collects .set left held) (leaves : delta.Leaves elements left) :
    Leaves type base (.set delta) held
  | list {delta : ListDelta} {items : List Value} {held : Value} (kind : type.kind = .list)
    (holds : Value.Collects .list items held) (merge : delta.merge base = .ok (.list items)) :
    Leaves type base (.list delta) held
  | undeclared {delta : CollectionDelta} {held : Value} (undeclared : type.element = none)
    (apart : delta.Apart) : Leaves type base delta held

variable {table : TableSchema} {type : ValueType} {kind : Kind} {element : ElementType}
  {base held value : Value} {delta : CollectionDelta}

theorem Leaves.apart (hleaves : delta.Leaves type base held) : delta.Apart := by
  cases hleaves with
  | map _ _ _ _ _ leaves => exact leaves.apart
  | set _ _ _ _ _ leaves => exact leaves.apart
  | list => trivial
  | undeclared _ apart => exact apart

theorem Leaves.merge (hleaves : delta.Leaves type base held) (hpresent : held.isNull = false)
    (helement : type.requireElement = .ok element) (hmerge : delta.merge base element = .ok value) :
    value.Matches held := by
  cases hleaves with
  | map declared whole names _ holds leaves =>
    subst declared
    cases helement
    obtain ⟨merged, rfl, hnames, hkeys⟩ :=
      MapDelta.merge_ok leaves.amounts leaves.updates whole names hmerge
    cases holds with
    | absent => cases hpresent
    | present left =>
      refine .map ((Entries.perm_iff hnames leaves.names).mpr fun key => ?_)
      exact Except.ok.inj ((hkeys key).symm.trans (leaves.entry key))
  | set _ whole values distinct holds leaves =>
    obtain ⟨merged, rfl, hsame⟩ := leaves.merge_same values distinct whole hmerge
    cases holds with
    | absent => cases hpresent
    | present left => exact .set hsame
  | list _ holds merge =>
    cases merge.symm.trans hmerge
    cases holds with
    | absent => cases hpresent
    | present items => exact .refl _
  | undeclared hnone =>
    rw [ValueType.requireElement_eq_ok_iff.mp helement] at hnone
    cases hnone

/-! #### No changes -/

theorem leaves_none (hbase : MayHold table ⟨kind, some element⟩ base)
    (hnone : none? kind = some delta) : delta.Leaves ⟨kind, some element⟩ base base := by
  cases kind with
  | scalar => cases hnone
  | map =>
    cases hnone
    rcases hbase with rfl | hconforms
    · have hnames : (Entries.names ([] : List (String × Value))).Nodup := List.nodup_nil
      exact .map rfl rfl hnames (fun _ _ _ hfind => nomatch hfind) .absent
        (MapDelta.leaves_empty hnames false)
    · cases hconforms with
      | map names values =>
        refine .map rfl rfl names (fun hwhole key value hfind => ?_) (.present _)
          (MapDelta.leaves_empty names false)
        exact (values key value (Entries.mem_of_find? hfind)).isNumber hwhole
  | set =>
    cases hnone
    rcases hbase with rfl | hconforms
    · have hformed : ∀ element ∈ ([] : List Value), element.WellFormed := List.forall_mem_nil _
      exact .set rfl rfl hformed .nil .absent (SetDelta.leaves_empty hformed .nil false)
    · cases hconforms with
      | set distinct values =>
        have hformed := fun element hmem => (values element hmem).wellFormed
        exact .set rfl rfl hformed distinct (.present _) (SetDelta.leaves_empty hformed distinct false)
  | list =>
    cases hnone
    rcases hbase with rfl | hconforms
    · exact .list rfl .absent rfl
    · cases hconforms with
      | list values =>
        exact .list rfl (.present _) (congrArg (Except.ok ∘ Value.list) (List.append_nil _))

/-- Clearing leaves an empty collection of any base. -/
theorem leaves_clearing (base : Value) (hnone : none? type.kind = some delta) :
    ∃ empty, type.kind.emptyValue? = some empty ∧ empty.isNull = false ∧
      delta.clearing.Leaves type base empty := by
  obtain ⟨kind, declared⟩ := type
  cases kind with
  | scalar => cases hnone
  | map =>
    cases hnone
    refine ⟨_, rfl, rfl, ?_⟩
    have hnames : (Entries.names ([] : List (String × Value))).Nodup := List.nodup_nil
    cases declared with
    | none =>
      have hleaves := @MapDelta.leaves_empty .string _ hnames true
      exact .undeclared rfl hleaves.apart
    | some element =>
      exact .map rfl rfl hnames (fun _ _ _ hfind => nomatch hfind) (.present [])
        (MapDelta.leaves_empty hnames true)
  | set =>
    cases hnone
    have hformed : ∀ element ∈ ([] : List Value), element.WellFormed := List.forall_mem_nil _
    exact ⟨_, rfl, rfl, .set rfl rfl hformed .nil (.present [])
      (SetDelta.leaves_empty hformed .nil true)⟩
  | list =>
    cases hnone
    exact ⟨_, rfl, rfl, .list rfl (.present []) rfl⟩

/-! #### One more change -/

/-- One more change to a delta is a mutation of what the delta leaves, and as the first change it is
the mutation of any value. -/
structure Follows (field : FieldSchema) (mutation : Mutation) (element : ElementType)
    (empty : CollectionDelta)
    (change : CollectionDelta → ElementType → Except Error CollectionDelta) : Prop where
  pending : ∀ {delta after : CollectionDelta} {base held : Value},
    delta.Leaves field.type base held → change delta element = .ok after →
      ∃ value, mutation.perform field held = .ok value ∧ value.isNull = false ∧
        after.Leaves field.type base value
  whole : ∀ {delta : CollectionDelta} {value result : Value}, change empty element = .ok delta →
    delta.merge value element = .ok result → mutation.perform field value = .ok result

section Following

variable {field : FieldSchema} {mutation : Mutation}

theorem follows_map {change : MapDelta → ElementType → Except Error MapDelta}
    {edit : List (String × Value) → Except Error (List (String × Value))}
    (htype : field.type = ⟨.map, some element⟩)
    (hperform : ∀ value, mutation.perform field value =
      value.mapEntries >>= fun entries => (edit entries).map .map)
    (hpending : ∀ {delta after : MapDelta} {entries left : List (String × Value)},
      (element.IsWhole → ∀ key value, Entries.find? entries key = some value → value.IsNumber) →
      delta.Leaves element entries left → change delta element = .ok after →
        after.clear = delta.clear ∧
          ∃ later, edit left = .ok later ∧ after.Leaves element entries later)
    (hwhole : ∀ {delta : MapDelta}, change .none element = .ok delta → delta.clear = false ∧
      ∀ entries, delta.mergeInto element entries = (edit entries).map .map) :
    Follows field mutation element (.map .none) fun delta element =>
      match delta with
      | .map delta => (change delta element).map .map
      | other => .ok other where
  pending := by
    intro delta after base held hleaves hchange
    rw [htype] at hleaves ⊢
    cases hleaves with
    | @map delta _ entries left _ declared whole names numbers holds leaves =>
      cases declared
      obtain ⟨later, hlater, rfl⟩ := map_eq_ok_iff.mp hchange
      obtain ⟨hclear, edited, hedit, hedited⟩ := hpending numbers leaves hlater
      refine ⟨.map edited, ?_, rfl, .map rfl ?_ names numbers (.present edited) hedited⟩
      · rw [hperform]
        cases holds <;> rw [Value.mapEntries, ok_bind, hedit] <;> rfl
      · unfold MapDelta.baseEntries at whole ⊢
        rw [hclear]
        exact whole
    | set hkind => cases hkind
    | list hkind => cases hkind
    | undeclared hnone => cases hnone
  whole := by
    intro delta value result hchange hmerge
    obtain ⟨later, hlater, rfl⟩ := map_eq_ok_iff.mp hchange
    obtain ⟨hclear, hinto⟩ := hwhole hlater
    change later.merge value element = .ok result at hmerge
    rw [MapDelta.merge_of_not_clear hclear, funext hinto] at hmerge
    rw [hperform]
    exact hmerge

theorem follows_set {change : SetDelta → SetDelta} {edit : List Value → List Value}
    (htype : field.type = ⟨.set, some element⟩)
    (hperform : ∀ value, mutation.perform field value =
      value.setElements.map fun elements => .set (edit elements))
    (hpending : ∀ {delta : SetDelta} {elements left : List Value}, delta.Leaves elements left →
      (change delta).clear = delta.clear ∧ (change delta).Leaves elements (edit left))
    (hwhole : (change .none).clear = false ∧
      ∀ elements, (change .none).mergeInto elements = edit elements) :
    Follows field mutation element (.set .none) fun delta _ =>
      match delta with
      | .set delta => .ok (.set (change delta))
      | other => .ok other where
  pending := by
    intro delta after base held hleaves hchange
    rw [htype] at hleaves ⊢
    cases hleaves with
    | map hdeclared => cases hdeclared
    | @set delta elements left _ _ whole values distinct holds leaves =>
      cases hchange
      obtain ⟨hclear, hedited⟩ := hpending leaves
      refine ⟨.set (edit left), ?_, rfl, .set rfl ?_ values distinct (.present _) hedited⟩
      · rw [hperform]
        cases holds <;> rfl
      · unfold SetDelta.baseElements at whole ⊢
        rw [hclear]
        exact whole
    | list hkind => cases hkind
    | undeclared hnone => cases hnone
  whole := by
    intro delta value result hchange hmerge
    cases hchange
    change (change .none).merge value = .ok result at hmerge
    rw [SetDelta.merge_of_not_clear hwhole.1, funext hwhole.2] at hmerge
    rw [hperform]
    exact hmerge

theorem follows_putEntry (htype : field.type = ⟨.map, some element⟩) (key : String)
    (value : Value) : Follows field (.putEntry key value) element (.map .none) fun delta _ =>
      match delta with
      | .map delta => (.ok (delta.putEntry key value) : Except Error MapDelta).map .map
      | other => .ok other := by
  refine @follows_map _ _ _ (fun delta _ => .ok (delta.putEntry key value))
    (fun entries => .ok (Entries.put entries key value)) htype ?_ ?_ ?_
  · intro held
    rfl
  · intro delta after entries left _ hleaves hchange
    cases hchange
    exact ⟨rfl, _, rfl, hleaves.putEntry key value⟩
  · intro delta hchange
    cases hchange
    refine ⟨rfl, fun entries => ?_⟩
    simp [MapDelta.mergeInto, MapDelta.putEntry, MapDelta.none, Entries.put, Entries.erase,
      Except.map]
    rfl

theorem follows_incrementEntry (htype : field.type = ⟨.map, some element⟩)
    (hwhole : element.IsWhole) (key : String) (amount : Number) :
    Follows field (.incrementEntry key amount) element (.map .none) fun delta element =>
      match delta with
      | .map delta =>
        (if element.isNumeric then delta.incrementEntry key amount element
          else .error (.contract (.incrementEntry element))).map .map
      | other => .ok other := by
  have hnumeric : element.isNumeric = true := by
    rcases hwhole with rfl | rfl <;> rfl
  have helement : field.type.requireElement = .ok element := by
    rw [htype]
    rfl
  refine @follows_map _ _ _ (fun delta element =>
      if element.isNumeric then delta.incrementEntry key amount element
        else .error (.contract (.incrementEntry element)))
    (fun entries => (addAmount ((Entries.find? entries key).getD .null) amount element).map
      (Entries.put entries key)) htype ?_ ?_ ?_
  · intro held
    simp only [Mutation.perform, helement, ok_bind]
    refine congrArg (held.mapEntries >>= ·) (funext fun entries => ?_)
    cases addAmount ((Entries.find? entries key).getD .null) amount element <;> rfl
  · intro delta after entries left hnumbers hleaves hchange
    rw [if_pos hnumeric] at hchange
    have hclear := MapDelta.clear_of_incrementEntry hchange
    obtain ⟨value, hadd, hlater⟩ := hleaves.incrementEntry (hnumbers hwhole) hwhole hchange
    exact ⟨hclear, _, by rw [hadd]; rfl, hlater⟩
  · intro delta hchange
    rw [if_pos hnumeric] at hchange
    cases hchange
    refine ⟨rfl, fun entries => ?_⟩
    simp [MapDelta.mergeInto, MapDelta.none, Entries.put, MapDelta.addTo,
      Entries.contains, addAmount_narrow hwhole]
    cases addAmount ((Entries.find? entries key).getD .null) amount element <;>
      simp [Except.map]

theorem follows_deleteEntry (htype : field.type = ⟨.map, some element⟩) (key : String) :
    Follows field (.deleteEntry key) element (.map .none) fun delta _ =>
      match delta with
      | .map delta => (.ok (delta.deleteEntry key) : Except Error MapDelta).map .map
      | other => .ok other := by
  refine @follows_map _ _ _ (fun delta _ => .ok (delta.deleteEntry key))
    (fun entries => .ok (Entries.erase entries key)) htype ?_ ?_ ?_
  · intro held
    rfl
  · intro delta after entries left _ hleaves hchange
    cases hchange
    exact ⟨rfl, _, rfl, hleaves.deleteEntry key⟩
  · intro delta hchange
    cases hchange
    refine ⟨rfl, fun entries => ?_⟩
    simp [MapDelta.mergeInto, MapDelta.deleteEntry, MapDelta.none, Entries.erase_eq_filter,
      Except.map]
    rfl

theorem follows_addElement (htype : field.type = ⟨.set, some element⟩) {value : Value}
    (hvalue : value.WellFormed) :
    Follows field (.addElement value) element (.set .none) fun delta _ =>
      match delta with
      | .set delta => .ok (.set (delta.addElement value))
      | other => .ok other := by
  refine @follows_set _ _ _ (fun delta => delta.addElement value)
    (fun elements => SetDelta.adjoin elements value) htype ?_ ?_ ?_
  · intro held
    rfl
  · intro delta elements left hleaves
    exact ⟨rfl, hleaves.addElement hvalue⟩
  · refine ⟨rfl, fun elements => ?_⟩
    simp [SetDelta.mergeInto, SetDelta.addElement, SetDelta.none, SetDelta.adjoin]

theorem follows_deleteElement (htype : field.type = ⟨.set, some element⟩) {value : Value}
    (hvalue : value.WellFormed) :
    Follows field (.deleteElement value) element (.set .none) fun delta _ =>
      match delta with
      | .set delta => .ok (.set (delta.deleteElement value))
      | other => .ok other := by
  refine @follows_set _ _ _ (fun delta => delta.deleteElement value)
    (fun elements => elements.filter fun element => !(value == element)) htype ?_ ?_ ?_
  · intro held
    rfl
  · intro delta elements left hleaves
    exact ⟨rfl, hleaves.deleteElement hvalue⟩
  · refine ⟨rfl, fun elements => ?_⟩
    simp [SetDelta.mergeInto, SetDelta.deleteElement, SetDelta.none, SetDelta.adjoin]

theorem follows_append (htype : field.type = ⟨.list, some element⟩) (values : List Value) :
    Follows field (.append values) element (.list .none) fun delta _ =>
      match delta with
      | .list delta => .ok (.list { delta with appends := delta.appends ++ values })
      | other => .ok other where
  pending := by
    intro delta after base held hleaves hchange
    rw [htype] at hleaves ⊢
    cases hleaves with
    | map hdeclared => cases hdeclared
    | set hkind => cases hkind
    | @list delta items _ _ holds merge =>
      cases hchange
      refine ⟨.list (items ++ values), ?_, rfl, .list rfl (.present _) ?_⟩
      · cases holds <;> rfl
      · exact ListDelta.merge_append merge values
    | undeclared hnone => cases hnone
  whole := by
    intro delta value result hchange hmerge
    cases hchange
    cases value <;> cases hmerge <;> rfl

end Following

end CollectionDelta

end RecordStore
