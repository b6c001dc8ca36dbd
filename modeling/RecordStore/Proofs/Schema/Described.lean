import Mathlib
import RecordStore.Proofs.Outcome
import RecordStore.Schema.Validation

/-!
# Described types

The types of a description, and the fields of each, are checked in turn against what was accepted
before them. All of them pass exactly when each field can be stored as it asks to be and the names
and attributes that have to differ do; what is accepted then is what is described.
-/

namespace RecordStore

theorem check_ok {accepted : Bool} {fault : SchemaFault} {result : Unit}
    (hcheck : SchemaFault.check accepted fault = .ok result) : accepted = true := by
  unfold SchemaFault.check at hcheck
  split at hcheck
  · assumption
  · cases hcheck

theorem check_eq_ok_iff {accepted : Bool} {fault : SchemaFault} :
    SchemaFault.check accepted fault = .ok () ↔ accepted = true := by
  cases accepted <;> simp [SchemaFault.check]

theorem check_bind_eq_ok_iff {α : Type} {accepted : Bool} {fault : SchemaFault}
    {next : Unit → Except Error α} {result : α} :
    (SchemaFault.check accepted fault >>= next) = .ok result ↔
      accepted = true ∧ next () = .ok result := by
  cases accepted with
  | false => exact ⟨fun hnext => (nomatch hnext), fun hnext => (nomatch hnext.1)⟩
  | true => exact (and_iff_right rfl).symm

theorem nodup_map_concat_iff {α β : Type} {key : α → β} {items : List α} {item : α} :
    ((items ++ [item]).map key).Nodup ↔
      (items.map key).Nodup ∧ ∀ other ∈ items, key other ≠ key item := by
  rw [List.map_append, List.nodup_append]
  simp

/-! ### Element types -/

namespace ElementType

/-- The types of numbers. -/
def numbers : List ElementType :=
  [.integer, .long, .float, .double]

/-- What the elements of sets and the components of keys can be. -/
def comparable : List ElementType :=
  .string :: .binary :: numbers

theorem isSetElement_iff {element : ElementType} :
    element.isSetElement = true ↔ element ∈ comparable := by
  cases element <;> simp [isSetElement, isNumeric, comparable, numbers]

theorem isKey_iff {element : ElementType} : element.isKey = true ↔ element ∈ comparable :=
  isSetElement_iff

end ElementType

/-! ### Fields -/

namespace FieldDescription

/-- The name of the stored attribute. -/
def wire (field : FieldDescription) : String :=
  field.wireName.getD field.name

def type (field : FieldDescription) : ValueType :=
  ⟨field.kind, field.element⟩

/-- The field while its default is unread. -/
def schema (field : FieldDescription) : FieldSchema where
  name := field.name
  wireName := field.wire
  type := field.type
  default := none
  persist := field.persist
  serialize := field.serialize
  replaceOnWrite := field.replaceOnWrite
  deltaMerge := field.deltaMerge
  compress := field.compress
  rekeyById := field.rekeyById
  expiry := field.expiry

@[simp] theorem schema_name (field : FieldDescription) : field.schema.name = field.name := rfl

@[simp] theorem schema_wireName (field : FieldDescription) : field.schema.wireName = field.wire := rfl

@[simp] theorem schema_type (field : FieldDescription) : field.schema.type = field.type := rfl

@[simp] theorem schema_persist (field : FieldDescription) :
    field.schema.persist = field.persist := rfl

@[simp] theorem schema_rekeyById (field : FieldDescription) :
    field.schema.rekeyById = field.rekeyById := rfl

@[simp] theorem schema_expiry (field : FieldDescription) : field.schema.expiry = field.expiry := rfl

/-- A field that says what it holds and can be stored as it asks to be. -/
structure Storable (field : FieldDescription) : Prop where
  named : field.name ≠ ""
  wire : field.wire ≠ "" ∧ '.' ∉ field.wire.toList
  element : ∃ element, field.element = some element
  compressed : field.compress = true → field.kind ≠ .scalar
  set : field.kind = .set → ∀ element ∈ field.element, element ∈ ElementType.comparable
  rekeyed : field.rekeyById = true →
    field.kind = .list ∧ ∃ typeName, field.element = some (.object typeName)
  expiry : field.expiry = true →
    field.kind = .scalar ∧ (field.element = some .integer ∨ field.element = some .long)

theorem resolve_eq_ok_iff {description : FieldDescription} {table typeName : String}
    {field : FieldSchema} : description.resolve table typeName = .ok field ↔
      description.Storable ∧ description.schema = field := by
  unfold resolve
  simp only [check_bind_eq_ok_iff]
  cases helement : description.element with
  | none =>
    constructor
    · rintro ⟨_, _, hresolve⟩
      cases hresolve
    · rintro ⟨hstorable, _⟩
      obtain ⟨element, hsome⟩ := hstorable.element
      rw [helement] at hsome
      cases hsome
  | some element =>
    simp only [check_bind_eq_ok_iff]
    constructor
    · rintro ⟨hname, hwire, hcompress, hset, hrekey, hexpiry, hdone⟩
      refine ⟨⟨?_, ?_, ⟨element, helement⟩, ?_, ?_, ?_, ?_⟩, ?_⟩
      · simpa using hname
      · simpa [wire] using hwire
      · intro hasks
        simpa [hasks, ValueType.isCollection] using hcompress
      · intro hkind other hother
        cases helement.symm.trans hother
        rw [← ElementType.isSetElement_iff]
        simpa [hkind] using hset
      · intro hasks
        have hboth : description.kind = .list ∧ element.isObject = true := by
          simpa [hasks] using hrekey
        refine ⟨hboth.1, ?_⟩
        cases element with
        | object typeName => exact ⟨typeName, helement⟩
        | _ => cases hboth.2
      · intro hasks
        simpa [hasks, helement] using hexpiry
      · rw [schema, type, helement]
        exact Except.ok.inj hdone
    · rintro ⟨hstorable, rfl⟩
      refine ⟨?_, ?_, ?_, ?_, ?_, ?_, ?_⟩
      · simpa using hstorable.named
      · simpa [wire] using hstorable.wire
      · simpa [ValueType.isCollection, imp_iff_not_or] using hstorable.compressed
      · by_cases hkind : description.kind = .set
        · simpa [hkind, ElementType.isSetElement_iff] using hstorable.set hkind element helement
        · simp [hkind]
      · cases hasks : description.rekeyById with
        | false => rfl
        | true =>
          obtain ⟨hkind, typeName, hobject⟩ := hstorable.rekeyed hasks
          cases helement.symm.trans hobject
          simp [hkind, ElementType.isObject]
      · cases hasks : description.expiry with
        | false => rfl
        | true => simpa [helement] using hstorable.expiry hasks
      · rw [schema, type, helement]
        rfl

end FieldDescription

/-! ### Fields of a type -/

def TypeDescription.schema (type : TypeDescription) : TypeSchema :=
  ⟨type.name, type.fields.map FieldDescription.schema⟩

/-- A type whose fields differ where they have to, and none of which takes the place of a counter. -/
structure TypeDescription.Valid (counters : CounterNames) (type : TypeDescription) : Prop where
  names : (type.fields.map FieldDescription.name).Nodup
  wires : ((type.fields.filter FieldDescription.persist).map FieldDescription.wire).Nodup
  reserved : ∀ field ∈ type.fields, field.persist = true →
    field.wire ≠ counters.version ∧ field.wire ≠ counters.revision
  storable : ∀ field ∈ type.fields, field.Storable

theorem nodup_wires_concat_iff {fields : List FieldDescription} {field : FieldDescription} :
    (((fields ++ [field]).filter FieldDescription.persist).map FieldDescription.wire).Nodup ↔
      ((fields.filter FieldDescription.persist).map FieldDescription.wire).Nodup ∧
      (field.persist = true → ∀ other ∈ fields, other.persist = true → other.wire ≠ field.wire) := by
  rw [List.filter_append]
  cases hpersist : field.persist with
  | false => simp [hpersist]
  | true =>
    have hlast : [field].filter FieldDescription.persist = [field] := by simp [hpersist]
    rw [hlast, nodup_map_concat_iff]
    simp

theorem TypeDescription.valid_concat_iff {counters : CounterNames} {typeName : String}
    {fields : List FieldDescription} {field : FieldDescription} :
    TypeDescription.Valid counters ⟨typeName, fields ++ [field]⟩ ↔
      TypeDescription.Valid counters ⟨typeName, fields⟩ ∧ field.Storable ∧
      (∀ other ∈ fields, other.name ≠ field.name) ∧
      (field.persist = true → (∀ other ∈ fields, other.persist = true → other.wire ≠ field.wire) ∧
        field.wire ≠ counters.version ∧ field.wire ≠ counters.revision) := by
  constructor
  · rintro ⟨hnames, hwires, hreserved, hstorable⟩
    rw [nodup_map_concat_iff] at hnames
    rw [nodup_wires_concat_iff] at hwires
    rw [List.forall_mem_append, List.forall_mem_singleton] at hreserved hstorable
    exact ⟨⟨hnames.1, hwires.1, hreserved.1, hstorable.1⟩, hstorable.2, hnames.2,
      fun hpersist => ⟨hwires.2 hpersist, hreserved.2 hpersist⟩⟩
  · rintro ⟨hvalid, hstorable, hname, hlast⟩
    exact {
      names := nodup_map_concat_iff.mpr ⟨hvalid.names, hname⟩
      wires := nodup_wires_concat_iff.mpr ⟨hvalid.wires, fun hpersist => (hlast hpersist).1⟩
      reserved := List.forall_mem_append.mpr
        ⟨hvalid.reserved, List.forall_mem_singleton.mpr fun hpersist => (hlast hpersist).2⟩
      storable := List.forall_mem_append.mpr
        ⟨hvalid.storable, List.forall_mem_singleton.mpr hstorable⟩ }

/-- The attributes of the fields that say when a record expires. -/
def expiryWires (fields : List FieldDescription) : List String :=
  (fields.filter FieldDescription.expiry).map FieldDescription.wire

theorem expiryWires_append (first second : List FieldDescription) :
    expiryWires (first ++ second) = expiryWires first ++ expiryWires second := by
  rw [expiryWires, List.filter_append, List.map_append]
  rfl

theorem expiryWires_length (fields : List FieldDescription) :
    (expiryWires fields).length = (fields.filter FieldDescription.expiry).length :=
  List.length_map _

theorem AcceptedFields.pure_eq_ok_iff {fields : List FieldSchema} {expiryAttribute : Option String}
    {next : AcceptedFields} :
    (pure ⟨fields, expiryAttribute⟩ : Except Error AcceptedFields) = .ok next ↔
      next.fields = fields ∧ next.expiryAttribute = expiryAttribute := by
  obtain ⟨_, _⟩ := next
  simp [pure, Except.pure, eq_comm]

section ToList

variable {α : Type} {first second : Option α}

theorem toList_eq_toList_iff : second.toList = first.toList ↔ second = first := by
  cases first <;> cases second <;> simp

theorem toList_eq_append_singleton_iff {item : α} :
    second.toList = first.toList ++ [item] ↔ first = none ∧ second = some item := by
  cases first <;> cases second <;> simp

theorem exists_toList_eq_iff {items : List α} :
    (∃ option : Option α, option.toList = items) ↔ items.length ≤ 1 := by
  constructor
  · rintro ⟨option, rfl⟩
    cases option <;> simp
  · intro hlength
    match items with
    | [] => exact ⟨none, rfl⟩
    | [item] => exact ⟨some item, rfl⟩
    | _ :: _ :: _ => simp at hlength

theorem exists_toList_eq_of_append {items others : List α}
    (hfirst : first.toList = items ++ others) : ∃ option : Option α, option.toList = items := by
  have hall := exists_toList_eq_iff.mp ⟨first, hfirst⟩
  rw [List.length_append] at hall
  exact exists_toList_eq_iff.mpr (by omega)

end ToList

theorem AcceptedFields.accept_eq_ok_iff {table : TableDescription} {typeName : String}
    {accepted next : AcceptedFields} {description : FieldDescription} :
    accepted.accept table typeName description = .ok next ↔
      description.Storable ∧ (∀ other ∈ accepted.fields, other.name ≠ description.name) ∧
      (description.persist = true →
        (∀ other ∈ accepted.fields, other.persist = true → other.wireName ≠ description.wire) ∧
        description.wire ≠ table.counters.version ∧ description.wire ≠ table.counters.revision) ∧
      (description.expiry = true → typeName = table.rootType) ∧
      next.fields = accepted.fields ++ [description.schema] ∧
      next.expiryAttribute.toList = accepted.expiryAttribute.toList ++ expiryWires [description] := by
  unfold accept
  rw [bind_eq_ok_iff]
  simp only [FieldDescription.resolve_eq_ok_iff, and_assoc, exists_and_left, exists_eq_left',
    check_bind_eq_ok_iff, List.all_eq_true, decide_eq_true_eq]
  refine and_congr_right fun _ => and_congr_right fun _ => ?_
  cases hpersist : description.persist <;> cases hexpiry : description.expiry <;>
    simp only [FieldDescription.schema_persist, FieldDescription.schema_expiry, hpersist, hexpiry,
      if_true, if_false, Bool.false_eq_true, check_bind_eq_ok_iff, pure_eq_ok_iff,
      List.all_eq_true, Bool.and_eq_true, Bool.or_eq_true, decide_eq_true_eq] <;>
    simp [hexpiry, expiryWires, toList_eq_append_singleton_iff, toList_eq_toList_iff, and_assoc,
      and_left_comm, imp_iff_not_or]

/-- The fields of a type are accepted in turn. No more than one attribute is ever held, so that the
attributes of the expiry fields are too many when there are two. -/
theorem foldlM_accept_eq_ok_iff {table : TableDescription} {typeName : String}
    {expiryAttribute : Option String} {fields : List FieldDescription} {result : AcceptedFields} :
    fields.foldlM (AcceptedFields.accept table typeName) ⟨[], expiryAttribute⟩ = .ok result ↔
      TypeDescription.Valid table.counters ⟨typeName, fields⟩ ∧
      (∀ field ∈ fields, field.expiry = true → typeName = table.rootType) ∧
      result.fields = fields.map FieldDescription.schema ∧
      result.expiryAttribute.toList = expiryAttribute.toList ++ expiryWires fields := by
  -- A field is checked against those before it, so that the last one is taken off.
  induction fields using List.reverseRecOn generalizing result with
  | nil =>
    have hvalid : TypeDescription.Valid table.counters ⟨typeName, []⟩ :=
      ⟨by simp, by simp, by simp, by simp⟩
    rw [List.foldlM_nil, AcceptedFields.pure_eq_ok_iff]
    simp [hvalid, expiryWires, toList_eq_toList_iff]
  | append_singleton fields field ih =>
    rw [foldlM_concat_eq_ok_iff, TypeDescription.valid_concat_iff, expiryWires_append,
      List.forall_mem_append, List.forall_mem_singleton]
    constructor
    · rintro ⟨middle, hbefore, haccept⟩
      obtain ⟨hvalid, hroot, hfields, hexpiry⟩ := ih.mp hbefore
      obtain ⟨hstorable, hname, hwire, hlast, hnext, hnextExpiry⟩ :=
        AcceptedFields.accept_eq_ok_iff.mp haccept
      rw [hfields] at hname hwire hnext
      rw [List.forall_mem_map] at hname hwire
      refine ⟨⟨hvalid, hstorable, hname, hwire⟩, ⟨hroot, hlast⟩, ?_, ?_⟩
      · rw [hnext, List.map_append, List.map_singleton]
      · rw [hnextExpiry, hexpiry, List.append_assoc]
    · rintro ⟨⟨hvalid, hstorable, hname, hwire⟩, ⟨hroot, hlast⟩, hfields, hexpiry⟩
      rw [← List.append_assoc] at hexpiry
      obtain ⟨held, hheld⟩ := exists_toList_eq_of_append hexpiry
      refine ⟨⟨fields.map FieldDescription.schema, held⟩, ih.mpr ⟨hvalid, hroot, rfl, hheld⟩, ?_⟩
      refine AcceptedFields.accept_eq_ok_iff.mpr
        ⟨hstorable, List.forall_mem_map.mpr hname, ?_, hlast, ?_, ?_⟩
      · rwa [List.forall_mem_map]
      · rw [hfields, List.map_append, List.map_singleton]
      · rw [hexpiry, hheld]

/-! ### Types -/

theorem AcceptedTypes.accept_eq_ok_iff {table : TableDescription} {accepted next : AcceptedTypes}
    {description : TypeDescription} : accepted.accept table description = .ok next ↔
      (∀ other ∈ accepted.types, other.name ≠ description.name) ∧
      description.Valid table.counters ∧
      (∀ field ∈ description.fields, field.expiry = true → description.name = table.rootType) ∧
      next.types = accepted.types ++ [description.schema] ∧
      next.expiryAttribute.toList =
        accepted.expiryAttribute.toList ++ expiryWires description.fields := by
  unfold accept
  rw [check_bind_eq_ok_iff, bind_eq_ok_iff]
  simp only [foldlM_accept_eq_ok_iff, List.all_eq_true, decide_eq_true_eq]
  refine and_congr_right fun _ => ?_
  constructor
  · rintro ⟨⟨fields, held⟩, ⟨hvalid, hroot, hfields, hexpiry⟩, hdone⟩
    cases hfields
    cases hdone
    exact ⟨hvalid, hroot, rfl, hexpiry⟩
  · rintro ⟨hvalid, hroot, htypes, hexpiry⟩
    obtain ⟨types, held⟩ := next
    cases htypes
    exact ⟨⟨_, held⟩, ⟨hvalid, hroot, rfl, hexpiry⟩, rfl⟩

/-- The types of a description are accepted in turn, with the one attribute carried along. -/
theorem foldlM_acceptTypes_eq_ok_iff {table : TableDescription} {types : List TypeDescription}
    {result : AcceptedTypes} :
    types.foldlM (AcceptedTypes.accept table) ⟨[], none⟩ = .ok result ↔
      (types.map TypeDescription.name).Nodup ∧
      (∀ type ∈ types, type.Valid table.counters) ∧
      (∀ type ∈ types, ∀ field ∈ type.fields, field.expiry = true → type.name = table.rootType) ∧
      result.types = types.map TypeDescription.schema ∧
      result.expiryAttribute.toList = expiryWires (types.flatMap TypeDescription.fields) := by
  induction types using List.reverseRecOn generalizing result with
  | nil =>
    rw [List.foldlM_nil]
    constructor
    · intro hdone
      cases hdone
      simp [expiryWires]
    · rintro ⟨-, -, -, htypes, hexpiry⟩
      obtain ⟨_, _ | held⟩ := result
      · cases htypes
        rfl
      · cases hexpiry
  | append_singleton types type ih =>
    rw [foldlM_concat_eq_ok_iff, nodup_map_concat_iff, List.forall_mem_append,
      List.forall_mem_append, List.forall_mem_singleton, List.forall_mem_singleton,
      List.flatMap_append, expiryWires_append]
    constructor
    · rintro ⟨middle, hbefore, haccept⟩
      obtain ⟨hnames, hvalid, hroot, htypes, hexpiry⟩ := ih.mp hbefore
      obtain ⟨hname, hlast, hlastRoot, hnext, hnextExpiry⟩ :=
        AcceptedTypes.accept_eq_ok_iff.mp haccept
      rw [htypes] at hname hnext
      rw [List.forall_mem_map] at hname
      refine ⟨⟨hnames, hname⟩, ⟨hvalid, hlast⟩, ⟨hroot, hlastRoot⟩, ?_, ?_⟩
      · rw [hnext, List.map_append, List.map_singleton]
      · rw [hnextExpiry, hexpiry, List.flatMap_singleton]
    · rintro ⟨⟨hnames, hname⟩, ⟨hvalid, hlast⟩, ⟨hroot, hlastRoot⟩, htypes, hexpiry⟩
      obtain ⟨held, hheld⟩ := exists_toList_eq_of_append hexpiry
      refine ⟨⟨types.map TypeDescription.schema, held⟩,
        ih.mpr ⟨hnames, hvalid, hroot, rfl, hheld⟩, ?_⟩
      refine AcceptedTypes.accept_eq_ok_iff.mpr
        ⟨List.forall_mem_map.mpr hname, hlast, hlastRoot, ?_, ?_⟩
      · rw [htypes, List.map_append, List.map_singleton]
      · rw [hexpiry, hheld, List.flatMap_singleton]

end RecordStore
