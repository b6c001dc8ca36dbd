import RecordStore.Proofs.Expression.Builder

/-!
# Registered conditions

Conditions of all forms are collected by one builder and joined by `AND`. The store reads the
compiled condition as the conjunction of what was registered, whatever groups the conditions are
made of.
-/

namespace RecordStore.Expression

/-- A condition that a request may carry: a tree of tests on declared paths, or one of the fixed
conditions on the attribute at a path of stored names, which begins with the name of an
attribute. -/
inductive Requirement where
  | tree (condition : Condition)
  | equal (first : String) (below : List String) (value : Attribute)
  | absent (first : String) (below : List String)
  | absentOrLess (first : String) (below : List String) (value : Attribute)

namespace Requirement

def register (table : TableSchema) : Requirement → Building Unit
  | tree condition => Builder.requireCondition table condition
  | equal first below value => Builder.requireEqual (first :: below) value
  | absent first below => Builder.requireAbsent (first :: below)
  | absentOrLess first below value => Builder.requireAbsentOrLess (first :: below) value

/-- Whether an item meets a requirement. -/
def holds (table : TableSchema) (item : Item) : Requirement → Bool
  | tree condition => condition.holds table item
  | equal first below value => compares .equal value (Item.resolve? item (first :: below))
  | absent first below => (Item.resolve? item (first :: below)).isNone
  | absentOrLess first below value =>
    (Item.resolve? item (first :: below)).isNone ||
      compares .less value (Item.resolve? item (first :: below))

variable (table : TableSchema)

theorem adds_register (requirement : Requirement) :
    (requirement.register table).Adds fun _ clauses =>
      clauses = .ofCondition fun item => requirement.holds table item := by
  cases requirement with
  | tree condition => exact Builder.adds_requireCondition table condition
  | equal first below value => exact Builder.adds_requireEqual (List.cons_ne_nil _ _) value
  | absent first below => exact Builder.adds_requireAbsent (List.cons_ne_nil _ _)
  | absentOrLess first below value =>
    exact Builder.adds_requireAbsentOrLess (List.cons_ne_nil _ _) value

theorem adds_registerAll (requirements : List Requirement) :
    Building.Adds (requirements.forM (register table)) fun _ clauses =>
      clauses.conditions = requirements.map fun requirement item =>
        requirement.holds table item := by
  induction requirements with
  | nil => exact .pure rfl
  | cons requirement rest ih =>
    change Building.Adds (requirement.register table >>= fun _ => rest.forM (register table)) _
    refine .bind (adds_register table requirement) fun _ added hadded => ?_
    refine ih.mono fun _ others hothers => ?_
    rw [hadded, Clauses.append_conditions, hothers]
    rfl

end Requirement

/-- Whatever conditions are registered on a new builder, the compiled condition is read, and what
it is read as holds of an item just if all that was registered does. -/
theorem parse_registered (table : TableSchema) {requirements : List Requirement}
    (hne : requirements ≠ []) {builder : Builder}
    (hregistered : Builder.run "" (requirements.forM (Requirement.register table)) =
      .ok ((), builder)) :
    ∃ text predicate, builder.compile.condition = some text ∧
      Predicate.parse builder.compile.bindings text = .ok predicate ∧
      ∀ item, predicate.holds item =
        .ok (requirements.all fun requirement => requirement.holds table item) := by
  obtain ⟨clauses, hclauses, hreads⟩ :=
    (Requirement.adds_registerAll table requirements).run_ok hregistered
  have hconditions : clauses.conditions ≠ [] := by
    rw [hclauses, ne_eq, List.map_eq_nil_iff]
    exact hne
  obtain ⟨text, predicate, hcompiled, hparse, hholds⟩ := hreads.condition hconditions
  refine ⟨text, predicate, hcompiled, hparse, ?_⟩
  intro item
  rw [hholds, Clauses.meets, hclauses, List.all_map]
  rfl

/-- A table of readings, each with a name and a level. -/
def readingTable : TableSchema where
  name := "readings"
  namespaceName := ""
  rootType := "Reading"
  version := 1
  optimisticLocking := true
  migrationsEnabled := false
  versionAttribute := "_v"
  revisionAttribute := "_rev"
  keys := ⟨⟨"name", "name", .string⟩, none⟩
  indexes := []
  expiryAttribute := none
  types := [⟨"Reading", [
    ⟨"name", "name", .scalar .string, none, true, true, false, false, false, false, false⟩,
    ⟨"level", "l", .scalar .integer, none, true, true, false, false, false, false, false⟩]⟩]

/-- A choice between a group and a range, beside a fixed condition. -/
def readingRequirements : List Requirement :=
  [.tree (.any [
      .all [.leaf "name" .exists, .not (.leaf "name" (.lacks (.string "x")))],
      .leaf "level" (.between (.number (.integer 1)) (.number (.integer 3)))]),
    .absentOrLess "_v" [] (.number "2")]

theorem parse_registered_readings :
    ∃ builder, Builder.run "" (readingRequirements.forM (Requirement.register readingTable)) =
        .ok ((), builder) ∧
      ∃ text predicate, builder.compile.condition = some text ∧
        Predicate.parse builder.compile.bindings text = .ok predicate ∧
        ∀ item, predicate.holds item =
          .ok (readingRequirements.all fun requirement => requirement.holds readingTable item) := by
  have hok : (Builder.run "" (readingRequirements.forM
      (Requirement.register readingTable))).isOk = true := by
    decide +kernel
  cases hrun : Builder.run "" (readingRequirements.forM (Requirement.register readingTable)) with
  | error error =>
    rw [hrun] at hok
    cases hok
  | ok outcome => exact ⟨outcome.2, rfl, parse_registered readingTable (by simp [readingRequirements]) hrun⟩

end RecordStore.Expression
