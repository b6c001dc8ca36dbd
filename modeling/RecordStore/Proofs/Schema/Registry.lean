import RecordStore.Proofs.Schema.Accepted
import RecordStore.Schema.Registry

/-!
# Tables of registries

Every table of a registry that was built was accepted, and no two of them share a name.
-/

namespace RecordStore.Registry

variable {registry : Registry}

/-- Tables that were accepted one after another. -/
structure Tables (tables : List TableSchema) : Prop where
  accepted : ∀ table ∈ tables, table.Accepted
  names : (tables.map TableSchema.name).Nodup

theorem Tables.acceptTable {tables later : List TableSchema} {description : TableDescription}
    (htables : Tables tables) (haccept : acceptTable tables description = .ok later) :
    Tables later := by
  obtain ⟨table, hresolve, haccept⟩ := bind_eq_ok_iff.mp haccept
  obtain ⟨⟨⟩, hcheck, hdone⟩ := bind_eq_ok_iff.mp haccept
  cases hdone
  have hfresh := List.all_eq_true.mp (check_ok hcheck)
  constructor
  · intro other hmem
    rcases List.mem_append.mp hmem with hmem | hmem
    · exact htables.accepted other hmem
    · rw [List.mem_singleton.mp hmem]
      exact TableDescription.accepted_of_resolve hresolve
  · rw [List.map_append, List.nodup_append]
    refine ⟨htables.names, List.nodup_singleton _, ?_⟩
    intro name hname other hother
    obtain ⟨earlier, hearlier, rfl⟩ := List.mem_map.mp hname
    rw [List.map_singleton, List.mem_singleton] at hother
    rw [hother]
    exact of_decide_eq_true (hfresh earlier hearlier)

theorem tables_of_build {description : SchemaDescription} {registrations : List (String × Migration)}
    (hbuild : build description registrations = .ok registry) : Tables registry.tables := by
  obtain ⟨tables, htables, hbuild⟩ := bind_eq_ok_iff.mp hbuild
  obtain ⟨registered, _, hdone⟩ := bind_eq_ok_iff.mp hbuild
  cases hdone
  have hnil : Tables [] := ⟨by simp, by simp⟩
  exact @foldlM_invariant _ _ _ acceptTable (fun _ tables => Tables tables)
    (fun _ _ _ _ hheld hnext => hheld.acceptTable hnext) [] _ _ _ hnil htables

theorem find?_of_requireTable {name : String} {table : TableSchema}
    (htable : registry.requireTable name = .ok table) :
    (registry.tables.find? fun table => table.name = name) = some table := by
  unfold requireTable at htable
  split at htable
  · rename_i found hfound
    cases htable
    exact hfound
  · cases htable

theorem mem_of_requireTable {name : String} {table : TableSchema}
    (htable : registry.requireTable name = .ok table) : table ∈ registry.tables :=
  List.mem_of_find?_eq_some (find?_of_requireTable htable)

theorem name_of_requireTable {name : String} {table : TableSchema}
    (htable : registry.requireTable name = .ok table) : table.name = name := by
  simpa using List.find?_some (find?_of_requireTable htable)

theorem Tables.requireTable_of_mem (htables : Tables registry.tables) {table : TableSchema}
    (hmem : table ∈ registry.tables) : registry.requireTable table.name = .ok table := by
  obtain ⟨found, hfound⟩ : ∃ found,
      (registry.tables.find? fun other => other.name = table.name) = some found :=
    Option.isSome_iff_exists.mp (List.find?_isSome.mpr ⟨table, hmem, by simp⟩)
  have hname : found.name = table.name := by simpa using List.find?_some hfound
  rw [requireTable, hfound,
    List.inj_on_of_nodup_map htables.names (List.mem_of_find?_eq_some hfound) hmem hname]

theorem accepted_of_build {description : SchemaDescription}
    {registrations : List (String × Migration)} {name : String} {table : TableSchema}
    (hbuild : build description registrations = .ok registry)
    (htable : registry.requireTable name = .ok table) : table.Accepted :=
  (tables_of_build hbuild).accepted table (mem_of_requireTable htable)

end RecordStore.Registry
