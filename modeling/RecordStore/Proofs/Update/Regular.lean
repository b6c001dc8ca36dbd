import RecordStore.Proofs.Update.Merged
import RecordStore.Proofs.Update.Stored

/-!
# Attributes as they are written

Whole numbers are written as integers, alone, as the entries of maps and as the members of sets, and
the entries of maps are written by ascending names. Saving a record leaves such attributes only, and
every update keeps them so: numbers may come to exceed the width of their type, but stay integers.
-/

namespace RecordStore

open Expression (Action Change Clauses applyUpdate)

open Expression.Clauses (leaves_of_nil leaves_single)

variable {table : TableSchema} {path : List String} {element : ElementType} {part : Clauses}
  {held stored : Option Attribute}

/-! ### Regular attributes -/

/-- A whole number is stored as an integer of 64 bits, which need not be within its width. -/
def ElementType.Counts (element : ElementType) (stored : Attribute) : Prop :=
  element.IsWhole → ∀ text, stored = .number text →
    ∃ value : Int64, Number.parse? text = some (.integer value)

/-- A member of a set of whole numbers is stored as an integer within the width of its type. -/
def ElementType.CountsMember (element : ElementType) (text : String) : Prop :=
  element.IsWhole → ∃ number, Number.parse? text = some number ∧ number.IsWithin element

/-- The entries of a map are kept by ascending names, with whole numbers as integers. -/
structure ElementType.CountsEntries (element : ElementType) (entries : Item) : Prop where
  ascending : Entries.Ascending entries
  counts : ∀ key value, Item.get? entries key = some value → element.Counts value

/-- What is stored of a value is of the form in which it is written, as far as it is not within an
object. -/
def ValueType.Counts (type : ValueType) (stored : Attribute) : Prop :=
  ∀ element, type.element = some element →
    match type.kind with
    | .scalar => element.Counts stored
    | .map => ∀ entries, stored = .map entries → element.CountsEntries entries
    | .set => ∀ texts, stored = .numberSet texts → ∀ text ∈ texts, element.CountsMember text
    | .list => True

/-- What is stored of a value is of the form in which it is written, at every depth of objects. -/
inductive Attribute.IsRegular (table : TableSchema) : ValueType → Attribute → Prop where
  | intro {type : ValueType} {stored : Attribute} (counts : type.Counts stored)
    (fields : ∀ typeName object entries field value, type = .scalar (.object typeName) →
      stored = .map entries → table.type? typeName = some object → field ∈ object.fields →
      field.persist = true → field.storage = .plain →
      Item.get? entries field.wireName = some value → IsRegular table field.type value) :
    IsRegular table type stored

namespace Attribute.IsRegular

variable {type : ValueType} {value : Attribute}

theorem counts (hregular : IsRegular table type value) : type.Counts value := by
  cases hregular with
  | intro counts _ => exact counts

theorem of_collection (hkind : type.kind ≠ .scalar) (hcounts : type.Counts value) :
    IsRegular table type value :=
  .intro hcounts fun _ _ _ _ _ htype => absurd (congrArg ValueType.kind htype) hkind

end Attribute.IsRegular

/-! ### What is encoded -/

namespace Codec

variable {type : ValueType} {value : Value} {encoded : Attribute}

theorem counts_encode (hstore : encode table .plain (.scalar element) value = .ok encoded) :
    element.Counts encoded := by
  rintro hwhole text rfl
  rcases hwhole with rfl | rfl <;> cases value <;> cases hstore <;>
    exact ⟨_, Number.parse?_text_integer _⟩

theorem counts_encodeSet {elements : List Value} {texts : List String}
    (hstore : encodeSet element elements = .ok (.numberSet texts)) :
    ∀ text ∈ texts, element.CountsMember text := by
  intro text hmem hwhole
  unfold encodeSet at hstore
  split at hstore
  · cases hstore
  have hnumeric : element.isNumeric = true ∧ (do
      let numbers ← elements.mapM (numberElement element)
      return Attribute.numberSet ((withoutRepeats numbers).map Number.text)) =
      .ok (.numberSet texts) := by
    rcases hwhole with rfl | rfl <;> exact ⟨rfl, hstore⟩
  obtain ⟨numbers, hnumbers, hdone⟩ := bind_eq_ok_iff.mp hnumeric.2
  cases hdone
  obtain ⟨integers, rfl, hnarrow⟩ := exists_integers_of_mapM hwhole hnumbers
  obtain ⟨number, hnumber, rfl⟩ := List.mem_map.mp hmem
  obtain ⟨value, hvalue, rfl⟩ := List.mem_map.mp (mem_withoutRepeats hnumber)
  exact ⟨_, Number.parse?_text_integer value, value, rfl, hnarrow value hvalue⟩

theorem countsEntries_encode {entries : List (String × Value)} {written : Item}
    (hstore : Entries.mapM (encode table .plain (.scalar element)) entries = .ok written) :
    element.CountsEntries (Item.ofEntries written) where
  ascending := Entries.ascending_sorted written
  counts key value hget := by
    obtain ⟨_, _, hentry⟩ :=
      exists_mem_of_forall₂ (mapM_ok hstore) _ (Entries.mem_sorted (Entries.mem_of_find? hget))
    obtain ⟨_, hencode, hsame⟩ := map_eq_ok_iff.mp hentry
    cases hsame
    exact counts_encode hencode

theorem counts_encode_type (hstore : encode table .plain type value = .ok encoded) :
    type.Counts encoded := by
  obtain ⟨kind, _ | element⟩ := type
  · exact fun _ helement => nomatch helement
  rintro _ ⟨⟩
  cases kind with
  | scalar => exact counts_encode hstore
  | list => trivial
  | map =>
    rintro entries rfl
    cases value with
    | null =>
      cases hstore
      exact ⟨.nil, fun _ _ hget => nomatch hget⟩
    | map entries =>
      obtain ⟨written, hwritten, hsame⟩ :=
        map_eq_ok_iff.mp ((encode_map_eq entries).symm.trans hstore)
      cases hsame
      exact countsEntries_encode hwritten
    | _ => cases element <;> cases hstore
  | set =>
    rintro texts rfl
    cases value with
    | list elements | set elements =>
      exact counts_encodeSet (show encodeSet element elements = _ from hstore)
    | null => cases hstore
    | _ => cases element <;> cases hstore

/-- What is encoded is regular. -/
theorem isRegular_encode (haccepted : table.Accepted) (value : Value) {type : ValueType}
    {encoded : Attribute} (hstore : encode table .plain type value = .ok encoded) :
    encoded.IsRegular table type := by
  refine .intro (counts_encode_type hstore) ?_
  rintro typeName object entries field held rfl rfl htype hfield hpersist hstorage hget
  obtain ⟨fields, revision, hvalue⟩ :
      ∃ fields revision, value = .object typeName fields revision := by
    cases value with
    | object actual fields revision =>
      cases typeName_of_encode hstore
      exact ⟨fields, revision, rfl⟩
    | _ => cases hstore
  subst hvalue
  obtain ⟨declared, hdeclared, hmembers⟩ :=
    bind_eq_ok_iff.mp ((encode_object_eq typeName fields revision).symm.trans hstore)
  cases htype.symm.trans (TableSchema.requireType_eq_ok_iff.mp hdeclared)
  obtain ⟨members, hmembers, hsame⟩ := map_eq_ok_iff.mp hmembers
  cases hsame
  obtain ⟨_, _, hmembers⟩ := bind_eq_ok_iff.mp hmembers
  have hwire := (haccepted.fields object (List.mem_of_find?_eq_some htype)).wireNames
  cases hfind : Entries.find? (encodeFields table fields) field.name with
  | none =>
    rw [get?_storeMembers_of_unset hmembers hwire hfield hpersist hfind] at hget
    cases hget
  | some store =>
    obtain ⟨stored, hencode, hstored⟩ := get?_storeMembers hmembers hwire hfield hpersist hfind
    obtain ⟨inner, hinner, _, rfl⟩ := exists_of_find?_encodeFields hfind
    cases hget.symm.trans hstored
    have hencode : encode table field.storage field.type inner = .ok held := hencode
    rw [hstorage] at hencode
    exact isRegular_encode haccepted inner hencode
termination_by sizeOf value
decreasing_by
  have hless := Entries.sizeOf_lt_of_mem hinner
  subst hvalue
  simp only [Value.object.sizeOf_spec]
  omega

end Codec

/-! ### Sums -/

theorem int64?_eq_some {value : Int} {result : Int64} (hread : Decimal.int64? value = some result) :
    result.toInt = value := by
  unfold Decimal.int64? at hread
  split at hread
  · rename_i hrange
    cases hread
    have hmost : Int64.maxValue.toInt = 2 ^ 63 - 1 := rfl
    exact Int64.toInt_ofInt_of_le hrange.1 (by omega)
  · cases hread

theorem Expression.calculate_sum_ok {left right : Int64} {leftText text : String}
    (hleft : Number.parse? leftText = some (.integer left))
    (hsum : calculate Number.sum? leftText (Number.integer right).text = .ok text) :
    ∃ sum : Int64, sum.toInt = left.toInt + right.toInt ∧ text = (Number.integer sum).text := by
  unfold calculate readNumber at hsum
  rw [hleft, Number.parse?_text_integer, ok_bind, ok_bind, Number.sum?] at hsum
  cases hresult : Decimal.int64? (left.toInt + right.toInt) with
  | none =>
    rw [hresult] at hsum
    cases hsum
  | some sum =>
    rw [hresult] at hsum
    cases hsum
    exact ⟨sum, int64?_eq_some hresult, rfl⟩

/-- An increase of a whole number adds to the integer that is stored, where nothing counts as zero. -/
theorem increaseClauses_whole {amount : Number} (hwhole : element.IsWhole)
    (hpart : increaseClauses path amount element = .ok part) (hleaves : part.Leaves path held stored)
    (hcounts : ∀ value, held = some value → element.Counts value) :
    ∃ left right sum : Int64, amount.narrow element = .integer right ∧
      sum.toInt = left.toInt + right.toInt ∧
      stored = some (.number (Number.integer sum).text) ∧
      (held = none ∧ left = 0 ∨
        ∃ present, held = some (.number present) ∧ Number.parse? present = some (.integer left)) := by
  obtain ⟨right, hright, _⟩ := Number.isWithin_narrow hwhole amount
  have hzero : Number.zero element = .integer 0 := by rcases hwhole with rfl | rfl <;> rfl
  obtain ⟨text, rfl, hsum⟩ := increaseClauses_ok hpart hleaves
  rw [hright, hzero] at hsum
  rcases hsum with ⟨rfl, rfl | hsum⟩ | ⟨present, rfl, hsum⟩
  · exact ⟨0, right, right, hright, (Int.zero_add _).symm, rfl, .inl ⟨rfl, rfl⟩⟩
  · obtain ⟨sum, hsame, rfl⟩ := Expression.calculate_sum_ok (Number.parse?_text_integer 0) hsum
    exact ⟨0, right, sum, hright, hsame, rfl, .inl ⟨rfl, rfl⟩⟩
  · obtain ⟨left, hleft⟩ := hcounts _ rfl hwhole present rfl
    obtain ⟨sum, hsame, rfl⟩ := Expression.calculate_sum_ok hleft hsum
    exact ⟨left, right, sum, hright, hsame, rfl, .inr ⟨present, rfl, hleft⟩⟩

theorem counts_increaseClauses {amount : Number} {value : Attribute}
    (hpart : increaseClauses path amount element = .ok part)
    (hleaves : part.Leaves path held (some value))
    (hcounts : ∀ value, held = some value → element.Counts value) : element.Counts value := by
  intro hwhole text htext
  obtain ⟨left, right, sum, _, _, hstored, _⟩ :=
    increaseClauses_whole hwhole hpart hleaves hcounts
  cases htext
  cases hstored
  exact ⟨sum, Number.parse?_text_integer sum⟩

/-! ### Regular collections -/

theorem MapDelta.countsEntries {delta : MapDelta} {entries : Item} (hdelta : delta.Distinct)
    (hpart : delta.clauses table path element = .ok part)
    (hleaves : part.Leaves path (some (.map entries)) stored)
    (hcounts : element.CountsEntries entries) :
    ∃ later, stored = some (.map later) ∧ element.CountsEntries later := by
  obtain ⟨later, rfl, hascending, hentries⟩ := leaves_entries hdelta hpart hleaves
  refine ⟨later, rfl, hascending hcounts.ascending, fun key value hget => ?_⟩
  have hkey := hentries key
  unfold StoresAt at hkey
  split at hkey
  · rw [hkey] at hget
    cases hget
  · split at hkey
    · obtain ⟨encoded, hencode, hstored⟩ := hkey
      cases hget.symm.trans hstored
      exact Codec.counts_encode hencode
    · obtain ⟨part, hpart, hleaves⟩ := hkey
      rw [hget] at hleaves
      exact counts_increaseClauses hpart hleaves (hcounts.counts key)
    · exact hcounts.counts key value (hkey ▸ hget)

theorem Expression.mem_union {α : Type} {equal : α → α → Bool} {members gained : List α} {member : α}
    (hmem : member ∈ union equal members gained) : member ∈ members ∨ member ∈ gained := by
  induction gained generalizing members with
  | nil => exact .inl hmem
  | cons first rest ih =>
    rcases ih hmem with hheld | hrest
    · dsimp only at hheld
      split at hheld
      · exact .inl hheld
      · exact (List.mem_append.mp hheld).imp_right fun hfirst => by
          rw [List.mem_singleton.mp hfirst]
          exact List.mem_cons_self
    · exact .inr (.tail _ hrest)

/-- A set of numbers comes of sets of numbers. -/
theorem Expression.added_eq_numberSet {operand : Attribute} {texts : List String}
    (hadd : added held operand = .ok (.numberSet texts)) :
    ∃ others, operand = .numberSet others ∧ ∀ text ∈ texts,
      text ∈ others ∨ ∃ before, held = some (.numberSet before) ∧ text ∈ before := by
  cases held with
  | none =>
    cases operand <;> cases hadd
    exact ⟨texts, rfl, fun text hmem => .inl hmem⟩
  | some present =>
    cases present with
    | number current =>
      cases operand with
      | number =>
        obtain ⟨_, _, hsame⟩ := map_eq_ok_iff.mp hadd
        cases hsame
      | _ => cases hadd
    | numberSet before =>
      cases operand <;> cases hadd
      exact ⟨_, rfl, fun text hmem => (mem_union hmem).symm.imp_right fun hmem => ⟨_, rfl, hmem⟩⟩
    | stringSet | binarySet => cases operand <;> cases hadd
    | _ => cases hadd

/-- What is left of a set, nothing when it has no members left. -/
def Expression.leftOf {α : Type} (form : List α → Attribute) (members : List α) : Option Attribute :=
  if members.isEmpty then none else some (form members)

theorem Expression.eq_of_leftOf {α : Type} {form : List α → Attribute} {members : List α}
    {value : Attribute} (hleft : leftOf form members = some value) : form members = value := by
  unfold leftOf at hleft
  split at hleft
  · cases hleft
  · exact Option.some.inj hleft

theorem Expression.remaining_numberSet (members others : List String) :
    remaining (.numberSet members) (.numberSet others) =
      .ok (leftOf .numberSet (without Attribute.equalNumbers members others)) := by
  rfl

theorem Expression.remaining_eq_numberSet {present operand : Attribute} {texts : List String}
    (hdelete : remaining present operand = .ok (some (.numberSet texts))) :
    ∃ before, present = .numberSet before ∧ ∀ text ∈ texts, text ∈ before := by
  cases present with
  | numberSet before =>
    cases operand with
    | numberSet others =>
      rw [remaining_numberSet] at hdelete
      cases eq_of_leftOf (Except.ok.inj hdelete)
      exact ⟨before, rfl, fun text hmem => (List.mem_filter.mp hmem).1⟩
    | _ => cases hdelete
  | stringSet before =>
    cases operand with
    | stringSet others =>
      have hleft : leftOf .stringSet (without (· = ·) before others) = some (.numberSet texts) :=
        Except.ok.inj hdelete
      cases eq_of_leftOf hleft
    | _ => cases hdelete
  | binarySet before =>
    cases operand with
    | binarySet others =>
      have hleft : leftOf .binarySet (without (· = ·) before others) = some (.numberSet texts) :=
        Except.ok.inj hdelete
      cases eq_of_leftOf hleft
    | _ => cases hdelete
  | _ => cases hdelete

namespace CollectionDelta.Stores

variable {delta : CollectionDelta} {base : Value}

/-- The clauses of a collection keep what is stored of it in the form in which it is written. -/
theorem counts {value : Attribute} (hdelta : delta.Distinct)
    (hstores : delta.Stores table path element base held (some value))
    (hheld : ∀ value, held = some value → (ValueType.mk delta.kind (some element)).Counts value) :
    (ValueType.mk delta.kind (some element)).Counts value := by
  generalize hstored : some value = stored at hstores
  cases hstores with
  | whole _ _ hencode =>
    cases hstored
    exact Codec.counts_encode_type hencode
  | entries _ hpart hleaves =>
    rintro _ ⟨⟩ entries rfl
    by_cases hmap : ∃ entries, held = some (.map entries)
    · obtain ⟨before, rfl⟩ := hmap
      obtain ⟨later, hsame, hcounts⟩ :=
        MapDelta.countsEntries hdelta hpart hleaves (hheld _ rfl element rfl before rfl)
      cases hstored.trans hsame
      exact hcounts
    · rw [not_exists] at hmap
      cases hleaves.of_not_map (MapDelta.path_ne_of_mem hpart) hmap
      exact absurd hstored.symm (hmap entries)
  | gained _ _ hencode hadd =>
    cases hstored
    rintro _ ⟨⟩ texts rfl text hmem
    obtain ⟨others, rfl, hfrom⟩ := Expression.added_eq_numberSet hadd
    rcases hfrom text hmem with hmem | ⟨before, rfl, hmem⟩
    · exact Codec.counts_encodeSet hencode text hmem
    · exact hheld _ rfl element rfl before rfl text hmem
  | lost _ _ _ hdelete =>
    rintro _ ⟨⟩ texts rfl text hmem
    cases held with
    | none => cases hstored.trans (Except.ok.inj hdelete).symm
    | some present =>
      rw [← hstored] at hdelete
      obtain ⟨before, rfl, hfrom⟩ := Expression.remaining_eq_numberSet hdelete
      exact hheld _ rfl element rfl before rfl text (hfrom text hmem)
  | appended => exact fun _ _ => trivial

end CollectionDelta.Stores

/-! ### Regular fields -/

/-- What is stored, if anything, is regular. -/
def FieldSchema.IsRegular (table : TableSchema) (field : FieldSchema) (stored : Option Attribute) :
    Prop :=
  ∀ value, stored = some value → value.IsRegular table field.type

namespace FieldSchema

variable {field : FieldSchema} {value : Value}

theorem isRegular_none : field.IsRegular table none :=
  fun _ hvalue => nomatch hvalue

theorem Stores.isRegular (haccepted : table.Accepted) (hplain : field.storage = .plain)
    (hstores : field.Stores table value stored) : field.IsRegular table stored := by
  unfold Stores at hstores
  split at hstores
  · rw [hstores]
    exact isRegular_none
  · obtain ⟨encoded, hencode, rfl⟩ := hstores
    rintro _ ⟨⟩
    rw [Codec.encodeField, hplain] at hencode
    exact Codec.isRegular_encode haccepted value hencode

theorem isRegular_of_increase {amount : Number} (helement : field.type.element = some element)
    (hpart : increaseClauses path amount element = .ok part) (hleaves : part.Leaves path held stored)
    (hheld : field.IsRegular table held) : field.IsRegular table stored := by
  obtain ⟨text, rfl, _⟩ := increaseClauses_ok hpart hleaves
  rintro _ ⟨⟩
  refine .intro ?_ fun _ _ _ _ _ _ hmap => nomatch hmap
  intro declared hdeclared
  cases helement.symm.trans hdeclared
  cases hkind : field.type.kind with
  | scalar =>
    refine counts_increaseClauses hpart hleaves fun value hvalue => ?_
    have hcounts := (hheld value hvalue).counts element helement
    rwa [hkind] at hcounts
  | map => exact fun _ hmap => nomatch hmap
  | set => exact fun _ hset => nomatch hset
  | list => trivial

theorem isRegular_of_collection {delta : CollectionDelta} {base : Value}
    (hfield : field.Storable) (hkind : field.type.kind = delta.kind) (hdelta : delta.Distinct)
    (hpart : delta.clauses table path field.type base = .ok part)
    (hleaves : part.Leaves path held stored) (hheld : field.IsRegular table held) :
    field.IsRegular table stored := by
  obtain ⟨element, helement⟩ := hfield.element
  have htype := ValueType.eq_of hkind helement
  cases hempty : delta.isEmpty with
  | true =>
    rw [CollectionDelta.clauses, if_pos hempty] at hpart
    cases hpart
    rw [(leaves_of_nil rfl).mp hleaves]
    exact hheld
  | false =>
    rw [htype] at hpart
    have hstores := CollectionDelta.stores_of_leaves hempty hpart hleaves
    rintro value rfl
    refine .of_collection ?_ ?_
    · rw [hkind]
      cases delta <;> exact Kind.noConfusion
    · rw [htype]
      refine hstores.counts hdelta fun value hvalue => ?_
      rw [← htype]
      exact (hheld value hvalue).counts

end FieldSchema

/-- A field that is stored, of objects of a type, in which the record holds an object. -/
structure Record.HoldsObject (table : TableSchema) (record : Record) (typeName : String)
    (held : Record) : Prop where
  field : ∃ name field, table.fieldOf? record.typeName name = some field ∧ field.persist = true ∧
    field.type = .scalar (.object typeName) ∧ record.get? name = some held.toValue

/-- The objects that a record holds are of the types that the fields that are stored declare, at
every depth. -/
inductive Record.ObjectsDeclared (table : TableSchema) : Record → Prop where
  | intro {record : Record}
    (types : ∀ typeName held, record.HoldsObject table typeName held → held.typeName = typeName)
    (objects : ∀ typeName held, record.HoldsObject table typeName held → ObjectsDeclared table held) :
    ObjectsDeclared table record

/-- The object that a field holds, if it holds one, is of the declared type. -/
def FieldSchema.HoldsDeclared (table : TableSchema) (field : FieldSchema) (held : Option Value) :
    Prop :=
  ∀ typeName record, field.type = .scalar (.object typeName) → held = some (Record.toValue record) →
    record.typeName = typeName ∧ record.ObjectsDeclared table

namespace Record.ObjectsDeclared

variable {record : Record}

theorem of_empty (typeName : String) : (Record.empty typeName).ObjectsDeclared table :=
  .intro (fun _ _ ⟨_, _, _, _, _, hheld⟩ => nomatch hheld)
    fun _ _ ⟨_, _, _, _, _, hheld⟩ => nomatch hheld

theorem holds {name : String} {field : FieldSchema} (hrecord : record.ObjectsDeclared table)
    (hfield : table.fieldOf? record.typeName name = some field) (hpersist : field.persist = true) :
    field.HoldsDeclared table (record.get? name) := by
  intro typeName held htype hheld
  have hholds : record.HoldsObject table typeName held :=
    ⟨name, field, hfield, hpersist, htype, hheld⟩
  cases hrecord with
  | intro types objects => exact ⟨types typeName held hholds, objects typeName held hholds⟩

end Record.ObjectsDeclared

/-- An object that is changed is the one that its field holds, or an empty one of the declared
type. -/
theorem FieldSchema.HoldsDeclared.nested {field : FieldSchema} {shown : Option Value}
    {typeName : String} (hholds : field.HoldsDeclared table shown)
    (htype : field.type = .scalar (.object typeName)) :
    ((shown.bind Value.record?).getD (.empty typeName)).typeName = typeName ∧
      ((shown.bind Value.record?).getD (.empty typeName)).ObjectsDeclared table := by
  cases shown with
  | none => exact ⟨rfl, .of_empty typeName⟩
  | some value =>
    cases value with
    | object actual fields revision => exact hholds typeName ⟨actual, fields, revision⟩ htype rfl
    | _ => exact ⟨rfl, .of_empty typeName⟩

namespace FieldMutation

/-- Whatever is stored of a field, the clauses of the mutation keep it regular. -/
def KeepsRegular (table : TableSchema) (mutation : FieldMutation) : Prop :=
  ∀ {field : FieldSchema} {path : List String} {shown : Option Value} {base : Value}
    {part : Clauses} {held stored : Option Attribute}, field.Storable → field.storage = .plain →
    mutation.Fits table field.type shown → field.HoldsDeclared table shown →
    mutation.clauses table field path base = .ok part → part.Leaves path held stored →
    field.IsRegular table held → field.IsRegular table stored

section Objects

variable {object : TypeSchema} {base : Record} {mutations : List (String × FieldMutation)}
  {entries later : Item}

theorem isRegular_fields (haccepted : table.Accepted)
    (htype : table.type? base.typeName = some object) (hbase : base.ObjectsDeclared table)
    (hfits : AllFit table base mutations)
    (hparts : ∀ name mutation, Entries.find? mutations name = some mutation →
      mutation.KeepsRegular table)
    (hleaves : ∀ field ∈ object.fields, field.persist = true →
      LeavesField table path base mutations field (Item.get? entries field.wireName)
        (Item.get? later field.wireName))
    (hheld : (Attribute.map entries).IsRegular table (.scalar (.object base.typeName))) :
    (Attribute.map later).IsRegular table (.scalar (.object base.typeName)) := by
  refine .intro (fun _ helement hwhole => ?_) ?_
  · cases helement
    rcases hwhole with hwhole | hwhole <;> cases hwhole
  rintro _ declared _ field value ⟨⟩ ⟨⟩ hdeclared hfield hpersist hplain hget
  cases htype.symm.trans hdeclared
  have hbefore : field.IsRegular table (Item.get? entries field.wireName) := by
    intro value hvalue
    cases hheld with
    | intro _ fields => exact fields _ _ _ _ _ rfl rfl htype hfield hpersist hplain hvalue
  obtain ⟨part, hpart, hleaves⟩ := hleaves field hfield hpersist
  refine (?_ : field.IsRegular table (Item.get? later field.wireName)) value hget
  unfold clausesOf at hpart
  split at hpart
  · rename_i mutation hfind
    split at hpart
    · cases hpart
      rw [(leaves_of_nil rfl).mp hleaves]
      exact hbefore
    · obtain ⟨found, hfound, hfits⟩ :=
        allFit_iff.mp hfits _ (Entries.mem_of_find? hfind)
      have hfields := haccepted.fields object (List.mem_of_find?_eq_some htype)
      have hdeclared : table.fieldOf? base.typeName field.name = some field := by
        rw [TableSchema.fieldOf?, htype]
        exact (TypeSchema.field?_eq_some_iff hfields.names).mpr ⟨hfield, rfl⟩
      cases hdeclared.symm.trans hfound
      exact hparts _ _ hfind (hfields.storable field hfield) hplain hfits
        (hbase.holds hdeclared hpersist) hpart hleaves hbefore
  · cases hpart
    rw [(leaves_of_nil rfl).mp hleaves]
    exact hbefore

end Objects

theorem keepsRegular (haccepted : table.Accepted) {mutation : FieldMutation}
    (hdistinct : mutation.Distinct) : mutation.KeepsRegular table := by
  induction hdistinct with
  | scalar delta =>
    intro field path shown base part held stored hfield hplain _ _ hpart hleaves hheld
    unfold clauses at hpart
    split at hpart
    · cases hpart
      rw [leaves_single (show _ = [Change.clear.action path] from rfl)] at hleaves
      cases hleaves
      exact FieldSchema.isRegular_none
    · split at hpart
      · exact ((leaves_fieldClauses hpart).mp hleaves).isRegular haccepted hplain
      · obtain ⟨element, helement, hpart⟩ := bind_eq_ok_iff.mp hpart
        split at hpart
        · exact FieldSchema.isRegular_of_increase
            (ValueType.requireElement_eq_ok_iff.mp helement) hpart hleaves hheld
        · obtain ⟨latest, _, hpart⟩ := bind_eq_ok_iff.mp hpart
          exact ((leaves_fieldClauses hpart).mp hleaves).isRegular haccepted hplain
      · cases hpart
        rw [(leaves_of_nil rfl).mp hleaves]
        exact hheld
  | collection hdelta =>
    intro field path shown base part held stored hfield hplain hfits _ hpart hleaves hheld
    unfold clauses at hpart
    split at hpart
    · exact FieldSchema.isRegular_of_collection hfield hfits hdelta hpart hleaves hheld
    · obtain ⟨element, _, hpart⟩ := bind_eq_ok_iff.mp hpart
      obtain ⟨latest, _, hpart⟩ := bind_eq_ok_iff.mp hpart
      exact ((leaves_fieldClauses hpart).mp hleaves).isRegular haccepted hplain
  | @object nested mutations names _ ih =>
    intro field path shown base part held stored _ hplain hfits hshown hpart hleaves hheld
    obtain ⟨typeName, hfieldType, rfl, _, hfits⟩ := hfits
    obtain ⟨hsame, hnested⟩ := hshown.nested hfieldType
    unfold clauses at hpart
    obtain ⟨object, htype, hpart⟩ := bind_eq_ok_iff.mp hpart
    split at hpart
    · obtain ⟨record, _, hpart⟩ := bind_eq_ok_iff.mp hpart
      exact ((leaves_fieldClauses hpart).mp hleaves).isRegular haccepted hplain
    · by_cases hmap : ∃ entries, held = some (.map entries)
      · obtain ⟨entries, rfl⟩ := hmap
        have htype := TableSchema.requireType_eq_ok_iff.mp htype
        have hfields := haccepted.fields object (List.mem_of_find?_eq_some htype)
        obtain ⟨later, rfl, hlater, _⟩ := leaves_fields hfields names hpart hleaves
        rintro _ ⟨⟩
        have hregular := hheld _ rfl
        rw [hfieldType] at hregular ⊢
        rw [← hsame] at hregular
        rw [← hsame]
        exact isRegular_fields haccepted htype hnested hfits ih hlater hregular
      · rw [not_exists] at hmap
        rw [hleaves.of_not_map (path_ne_of_mem hpart) hmap]
        exact hheld

end FieldMutation

end RecordStore
