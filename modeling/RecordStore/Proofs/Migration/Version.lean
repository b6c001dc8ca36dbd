import RecordStore.Proofs.Locking.Fence
import RecordStore.Proofs.Migration.Gate

/-!
# What requests ask of the stored version

A record that was migrated is stored again only in the place of an item below the version of its
table, and an update is made only to an item at that version, which it leaves there. How the store
compares versions agrees with how they are read.
-/

namespace RecordStore

open Expression (Building Builder Clauses compares)

/-! ### Comparing versions -/

theorem Decimal.readSigned?_of_readUInt32? {characters : List Char} {version : UInt32}
    (hread : readUInt32? characters = some version) :
    readSigned? characters = some (version.toNat : Int) := by
  obtain ⟨value, hdigits, hvalue⟩ := Option.bind_eq_some_iff.mp hread
  have hnat : version.toNat = value := by
    by_cases hsize : value < UInt32.size
    · rw [if_pos hsize] at hvalue
      rw [← Option.some.inj hvalue, UInt32.toNat_ofNat_of_lt' hsize]
    · rw [if_neg hsize] at hvalue
      cases hvalue
  rw [hnat]
  unfold readSigned?
  split
  · exact congrArg (Option.map Int.ofNat) hdigits
  · -- A minus sign is no digit.
    have hnone : ∀ digits, digitsValue? ('-' :: digits) = none := by
      intro digits
      unfold digitsValue?
      rw [if_pos]
      exact .inr (by simp)
    simp [hnone] at hdigits
  · rename_i hplus _
    split at hdigits
    · exact absurd rfl (hplus _)
    · exact congrArg (Option.map Int.ofNat) hdigits

theorem Number.parse?_of_readUInt32? {text : String} {version : UInt32}
    (hread : Decimal.readUInt32? (Text.trim text.toList) = some version) :
    ∃ value : Int64, parse? text = some (.integer value) ∧ value.toInt = version.toNat := by
  have hupper : version.toNat < 2 ^ 32 := version.toNat_lt
  have hrange : Int64.minValue.toInt ≤ (version.toNat : Int) ∧
      (version.toNat : Int) ≤ Int64.maxValue.toInt := by
    rw [Int64.toInt_minValue, Int64.toInt_maxValue]
    omega
  refine ⟨.ofInt version.toNat, ?_, Int64.toInt_ofInt_of_le (by omega) (by omega)⟩
  unfold parse? Decimal.readInt64?
  simp only [String.toList_ofList, Decimal.readSigned?_of_readUInt32? hread, Option.bind_some]
  rw [Decimal.int64?, if_pos hrange]

namespace TableSchema

/-- The condition that an item has no version or one below that of its table, as the store tests
it. -/
def staleTest (table : TableSchema) (item : Item) : Bool :=
  (Item.resolve? item [table.versionAttribute]).isNone ||
    compares .less (Codec.versionAttribute table.version)
      (Item.resolve? item [table.versionAttribute])

/-- The condition that an item is at the version of its table, as the store tests it. -/
def currentTest (table : TableSchema) (item : Item) : Bool :=
  compares .equal (Codec.versionAttribute table.version)
    (Item.resolve? item [table.versionAttribute])

variable {table : TableSchema} {item other : Item} {stored : UInt32}

theorem staleTest_congr
    (hsame : Item.get? item table.versionAttribute = Item.get? other table.versionAttribute) :
    table.staleTest item = table.staleTest other := by
  simp only [staleTest, Item.resolve?, hsame]

/-- An item without attributes is at no version. -/
theorem currentTest_nil : table.currentTest [] = false := rfl

/-- Versions are compared as they are read. -/
theorem staleTest_of_number {text : String}
    (hget : Item.get? item table.versionAttribute = some (.number text))
    (hread : Decimal.readUInt32? (Text.trim text.toList) = some stored) :
    table.staleTest item = decide (stored < table.version) := by
  obtain ⟨held, hheld, hheldInt⟩ := Number.parse?_of_readUInt32? hread
  obtain ⟨target, htarget, htargetInt⟩ := 
    Number.parse?_of_readUInt32? (Decimal.readUInt32?_trim_toString table.version)
  have hcompare : (Attribute.number text).compare? (Codec.versionAttribute table.version) =
      some (compare held.toInt target.toInt) := by
    change (do
      let left ← Number.parse? text
      let right ← Number.parse? (toString table.version.toNat)
      left.compare? right) = _
    rw [hheld, htarget]
    rfl
  have hless : table.staleTest item = decide ((Attribute.number text).compare?
      (Codec.versionAttribute table.version) = some .lt) := by
    simp only [staleTest, Item.resolve?, hget, compares, Expression.satisfies, Option.isNone_some,
      Bool.false_or]
  rw [hless, hcompare, decide_eq_decide, Option.some.injEq, Std.compare_eq_lt, hheldInt, htargetInt,
    Int.ofNat_lt, UInt32.lt_iff_toNat_lt]

/-- An item at the version of its table is not below it. Version zero is below no other. -/
theorem staleTest_of_storedAt (hstored : table.StoredAt item table.version)
    (hversion : 0 < table.version) : table.staleTest item = false := by
  generalize hat : table.version = version at hstored
  cases hstored with
  | absent => exact absurd (hat ▸ hversion) (UInt32.lt_irrefl 0)
  | null => exact absurd (hat ▸ hversion) (UInt32.lt_irrefl 0)
  | number hget hread =>
    rw [staleTest_of_number hget hread, hat, decide_eq_false_iff_not]
    exact UInt32.lt_irrefl version

theorem staleTest_of_currentTest (hcurrent : table.currentTest item = true) :
    table.staleTest item = false := by
  unfold currentTest at hcurrent
  unfold staleTest
  cases hget : Item.resolve? item [table.versionAttribute] with
  | none =>
    rw [hget] at hcurrent
    cases hcurrent
  | some held =>
    rw [hget] at hcurrent
    change held.equal (Codec.versionAttribute table.version) = true at hcurrent
    change decide (held.compare? (Codec.versionAttribute table.version) = some .lt) = false
    rw [decide_eq_false_iff_not]
    intro hless
    rw [Attribute.equal_of_compare? hless] at hcurrent
    cases hcurrent

end TableSchema

/-! ### Conditions of requests -/

variable {table : TableSchema}

theorem TableSchema.adds_requireRevision_any (table : TableSchema) (observed : Int64) :
    (table.requireRevision observed).Adds fun _ _ => True := by
  unfold requireRevision
  split
  · exact (Builder.adds_requireEqual (List.cons_ne_nil _ _) _).mono fun _ _ _ => trivial
  · exact .pure trivial

/-- A migrated record replaces only an item below the version of its table. -/
theorem PreparedPut.adds_requireStale (table : TableSchema) (observed : Int64) :
    (PreparedPut.require table observed .standard true).Adds fun _ added =>
      table.staleTest ∈ added.conditions := by
  apply (table.adds_requireRevision_any observed).bind
  intro _ first _
  apply (Builder.adds_requireAbsentOrLess (List.cons_ne_nil _ _) _).mono
  intro _ added hadded
  rw [hadded]
  exact List.mem_append_right _ List.mem_cons_self

namespace Update

/-- On a table that migrates an update is made only to items at the version of the table. -/
theorem adds_requireCurrent (table : TableSchema) :
    (requireVersion table).Adds fun _ added => added.Below [table.revisionAttribute] ∧
      (table.migrationsEnabled = true → table.currentTest ∈ added.conditions) := by
  unfold requireVersion
  split
  · apply (Builder.adds_requireEqual (List.cons_ne_nil _ _) _).mono
    rintro _ added rfl
    exact ⟨Clauses.below_none, fun _ => List.mem_cons_self⟩
  · apply (Builder.adds_requireAbsentOrLess (List.cons_ne_nil _ _) _).mono
    rintro _ added rfl
    exact ⟨Clauses.below_none, fun henabled => absurd henabled ‹_›⟩

/-- Advancing the revision acts on nothing else. -/
theorem below_advanceRevision (table : TableSchema) (observed : Int64) :
    (advanceRevision table observed).Adds fun _ added =>
      added.Below [table.revisionAttribute] := by
  have hcondition : Building.Adds (if observed ≠ 0 then
      Builder.requireEqual [table.revisionAttribute] (Codec.revisionAttribute observed)
      else pure ()) fun _ added => added.Below [table.revisionAttribute] := by
    by_cases hobserved : observed ≠ 0
    · rw [if_pos hobserved]
      apply (Builder.adds_requireEqual (List.cons_ne_nil _ _) _).mono
      rintro _ added rfl
      exact Clauses.below_none
    · rw [if_neg hobserved]
      exact .pure Clauses.below_none
  apply (Builder.adds_setAttribute (List.cons_ne_nil _ _) _).bind
  rintro _ first rfl
  apply hcondition.mono
  intro _ added hadded
  exact (Clauses.below_ofSet (List.prefix_refl _)).append hadded

/-- What an update asks of the counters. -/
theorem adds_counters_current (table : TableSchema) (observed : Int64) :
    Building.Adds (do
      requireVersion table
      if table.optimisticLocking then advanceRevision table observed) fun _ added =>
      added.Below [table.revisionAttribute] ∧
        (table.migrationsEnabled = true → table.currentTest ∈ added.conditions) := by
  have hrevision : Building.Adds (if table.optimisticLocking then
      advanceRevision table observed else pure ())
      fun _ added => added.Below [table.revisionAttribute] := by
    by_cases hlocking : table.optimisticLocking = true
    · rw [if_pos hlocking]
      exact below_advanceRevision table _
    · rw [if_neg hlocking]
      exact .pure Clauses.below_none
  apply (adds_requireCurrent table).bind
  rintro _ first ⟨hfirst, hcurrent⟩
  apply hrevision.mono
  intro _ added hadded
  exact ⟨hfirst.append hadded, fun henabled => List.mem_append_left _ (hcurrent henabled)⟩

/-- An update that writes something leaves the version as it is. On a table that migrates it is made
only to an item at the version of the table. -/
theorem reads_current {update : Update} {builder : Builder} {expression : String}
    (haccepted : table.Accepted) (hrun : Builder.run "" (update.build table) = .ok ((), builder))
    (hwrites : builder.compile.update = some expression) :
    ∃ clauses, builder.Reads clauses ∧
      (table.migrationsEnabled = true → table.currentTest ∈ clauses.conditions) ∧
      ∀ action ∈ clauses.actions, action.path.head? ≠ some table.versionAttribute := by
  obtain ⟨user, added, hreads, ⟨hbelow, hcurrent⟩, huser⟩ :=
    reads_append (ObjectUpdate.adds_compile haccepted _) (adds_counters_current table _) hrun hwrites
  refine ⟨user ++ added, hreads, fun henabled => List.mem_append_right _ (hcurrent henabled),
    fun action hmem => ?_⟩
  rcases Clauses.mem_actions_append.mp hmem with hmem | hmem
  · exact (huser action hmem).1
  · obtain ⟨rest, hpath⟩ := hbelow action hmem
    rw [← hpath]
    intro hsame
    exact haccepted.counters (Option.some.inj hsame).symm

end Update

end RecordStore
