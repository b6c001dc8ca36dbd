import RecordStore.Proofs.Codec.Parts

/-!
# Defaults

A default is read from JSON while the defaults of the other fields are still unread. Reading JSON
looks at no default, so that each default is what the accepted table itself reads in the declared
type.
-/

namespace RecordStore

/-! ### Tables that differ in their defaults -/

/-- Tables of one name whose types are the same but for the defaults of their fields. -/
structure TableSchema.SameTypes (left right : TableSchema) : Prop where
  name : left.name = right.name
  types : left.types.map TypeSchema.bare = right.types.map TypeSchema.bare

namespace TableSchema.SameTypes

variable {left right : TableSchema} {first second : TypeSchema}

theorem type? (hsame : left.SameTypes right) (name : String) :
    (left.type? name).map TypeSchema.bare = (right.type? name).map TypeSchema.bare := by
  unfold TableSchema.type?
  rw [← find?_bare, ← find?_bare, hsame.types]

theorem requireType (hsame : left.SameTypes right) (name : String) :
    (∃ error, left.requireType name = .error error ∧ right.requireType name = .error error) ∨
      ∃ first second, left.requireType name = .ok first ∧ right.requireType name = .ok second ∧
        first.bare = second.bare := by
  have htype := hsame.type? name
  unfold TableSchema.requireType
  rw [hsame.name]
  cases hleft : left.type? name with
  | none =>
    rw [hleft] at htype
    rw [Option.map_eq_none_iff.mp htype.symm]
    exact .inl ⟨_, rfl, rfl⟩
  | some first =>
    rw [hleft] at htype
    obtain ⟨second, hright, hbare⟩ := Option.map_eq_some_iff.mp htype.symm
    rw [hright]
    exact .inr ⟨first, second, rfl, rfl, hbare.symm⟩

end TableSchema.SameTypes

namespace Codec

variable {left right : TableSchema}

theorem fieldsOfJson_congr {first second : TypeSchema} (hbare : first.bare = second.bare)
    {members : List (String × Json)}
    (hread : ∀ name json, (name, json) ∈ members → ∀ type,
      ofJson left type json = ofJson right type json) (record : Record) :
    fieldsOfJson left first record members = fieldsOfJson right second record members := by
  induction members generalizing record with
  | nil => rw [fieldsOfJson, fieldsOfJson]
  | cons entry rest ih =>
    obtain ⟨name, json⟩ := entry
    have hfield : (first.field? name).map FieldSchema.bare =
        (second.field? name).map FieldSchema.bare := by
      rw [← TypeSchema.field?_bare, ← TypeSchema.field?_bare, hbare]
    have hname : first.bare.name = second.bare.name := by rw [hbare]
    simp only [TypeSchema.bare_name] at hname
    rw [fieldsOfJson, fieldsOfJson]
    cases hfirst : first.field? name with
    | none =>
      rw [hfirst] at hfield
      rw [Option.map_eq_none_iff.mp hfield.symm, hname]
    | some field =>
      rw [hfirst] at hfield
      obtain ⟨other, hsecond, hother⟩ := Option.map_eq_some_iff.mp hfield.symm
      have htype : field.bare.type = other.bare.type := by rw [hother]
      simp only [FieldSchema.bare_type] at htype
      rw [hsecond]
      dsimp only
      rw [htype, hread name json List.mem_cons_self]
      exact bind_congr fun value =>
        ih (fun name json hmem => hread name json (List.mem_cons_of_mem _ hmem)) _

/-- Reading JSON looks at no default. -/
theorem ofJson_congr (hsame : left.SameTypes right) (type : ValueType) (json : Json) :
    ofJson left type json = ofJson right type json := by
  induction json using Json.inductionOnParts generalizing type with
  | step json ih =>
    obtain ⟨kind, _ | element⟩ := type
    · cases json <;> rfl
    cases json with
    | array items =>
      have hitems : items.mapM (ofJson left (.scalar element)) =
          items.mapM (ofJson right (.scalar element)) := mapM_congr fun item hitem => ih item hitem _
      cases kind with
      | list => rw [ofJson_list_eq, ofJson_list_eq, hitems]
      | set => rw [ofJson_set_eq, ofJson_set_eq, hitems]
      | map => rfl
      | scalar => cases element <;> rfl
    | object members =>
      have hmembers : ∀ name json, (name, json) ∈ members → ∀ type,
          ofJson left type json = ofJson right type json := fun name json hmem =>
        ih json (List.mem_map_of_mem hmem)
      cases kind with
      | list | set => rfl
      | map =>
        have hentries : Entries.mapM (ofJson left (.scalar element)) members =
            Entries.mapM (ofJson right (.scalar element)) members :=
          mapM_congr fun ⟨name, member⟩ hmem => by rw [hmembers name member hmem]
        rw [ofJson_map_eq, ofJson_map_eq, hentries]
      | scalar =>
        cases element with
        | object typeName =>
          refine (ofJson_object_eq typeName members).trans
            (Eq.trans ?_ (ofJson_object_eq typeName members).symm)
          rcases hsame.requireType typeName with ⟨error, hleft, hright⟩ |
            ⟨first, second, hleft, hright, hbare⟩
          · rw [hleft, hright]
            rfl
          · rw [hleft, hright, ok_bind, ok_bind, fieldsOfJson_congr hbare hmembers]
        | _ => rfl
    | _ => cases kind <;> cases element <;> rfl

end Codec

/-! ### Defaults of accepted tables -/

variable {table : TableSchema}

/-- Every default is read of some JSON in the declared type of its field. -/
def TableSchema.ReadsDefaults (table : TableSchema) : Prop :=
  ∀ type ∈ table.types, ∀ field ∈ type.fields, ∀ value, field.default = some value →
    ∃ json, Codec.ofJson table field.type json = .ok value

/-- An accepted table itself reads the defaults that it was accepted with. -/
theorem TableDescription.readsDefaults_of_resolve {description : TableDescription}
    (hresolve : description.resolve = .ok table) : table.ReadsDefaults := by
  intro type hmem field hfield value hdefault
  obtain ⟨root, expiryAttribute, keys, indexes, hresolves⟩ := resolve_eq_ok_iff.mp hresolve
  have hsame : (description.unread expiryAttribute keys indexes).SameTypes table := by
    refine ⟨?_, ?_⟩
    · rw [hresolves.table_eq]
    · rw [hresolves.bare, TableDescription.unread, schemas, List.map_map]
      exact List.map_congr_left fun type _ => type.bare_schema
  obtain ⟨described, hdescribed, hread⟩ :=
    exists_mem_of_forall₂ (mapM_ok hresolves.defaults) type hmem
  obtain ⟨fields, hfields, rfl⟩ := TypeDescription.withDefaults_eq_ok_iff.mp hread
  obtain ⟨asked, -, hresult⟩ := exists_mem_of_forall₂ (mapM_ok hfields) field hfield
  rcases FieldDescription.withDefault_eq_ok_iff.mp hresult with ⟨-, rfl⟩ | ⟨json, read, -, hjson, rfl⟩
  · cases hdefault
  · cases hdefault
    rw [Codec.ofJson_congr hsame] at hjson
    exact ⟨json, hjson⟩

end RecordStore
